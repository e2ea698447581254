/-
The messages of an agent run, and the tool changes that are declared to the model with the
messages sent to it. Payloads are of any type.
-/
import Hummin.JsMap
import Hummin.ProviderTranscript

namespace Hummin.AgentLoop

universe u

open Provider (StopReason)

variable {π : Type u}

structure ToolCall (π : Type u) where
  id : JsString
  name : JsString
  arguments : π
deriving DecidableEq

/-- A tool as it is declared to the model. -/
structure Declaration (π : Type u) where
  name : JsString
  body : π
deriving DecidableEq

structure Tool (π : Type u) where
  declaration : Declaration π
  sequential : Bool
deriving DecidableEq

/-- Content that the loop writes itself, or that it passes on. -/
inductive Content (π : Type u)
  | empty
  | text (text : JsString)
  | value (value : π)
deriving DecidableEq

structure ToolResult (π : Type u) where
  content : Option (Content π)
  details : Option (Content π)
  usage : Option π
  structuredContent : Option π
  terminate : Option Bool
deriving DecidableEq

structure AssistantMessage (π : Type u) where
  content : π
  calls : List (ToolCall π)
  stopReason : StopReason
deriving DecidableEq

structure ToolResultMessage (π : Type u) where
  toolCallId : JsString
  toolName : JsString
  content : Content π
  details : Option (Content π)
  usage : Option π
  isError : Bool
deriving DecidableEq

/-- A system message; no tools stand for an absent field. -/
structure SystemMessage (π : Type u) where
  content : Content π
  toolsAdded : List (Declaration π)
  toolsRemoved : List JsString
deriving DecidableEq

/-- Where a message that is not of the loop's own turns comes from. -/
inductive Origin
  | prompt
  | prepared
  | queued
  | declared
deriving DecidableEq

inductive Message (π : Type u)
  | system (origin : Origin) (message : SystemMessage π)
  | other (origin : Origin) (content : π)
  | assistant (message : AssistantMessage π)
  | toolResult (message : ToolResultMessage π)
deriving DecidableEq

/-- A message of a prompt, of a hook or of a queue. -/
inductive Given (π : Type u)
  | system (message : SystemMessage π)
  | other (content : π)
deriving DecidableEq

def Given.toMessage (origin : Origin) : Given π → Message π
  | .system message => .system origin message
  | .other content => .other origin content

namespace Message

def isSystem : Message π → Bool
  | .system .. => true
  | _ => false

def isAssistant : Message π → Bool
  | .assistant _ => true
  | _ => false

def isToolResult : Message π → Bool
  | .toolResult _ => true
  | _ => false

/-- A steering or follow-up message. -/
def isQueued : Message π → Bool
  | .system origin _ => decide (origin = .queued)
  | .other origin _ => decide (origin = .queued)
  | _ => false

/-- A message but for the tools it declares. -/
def withoutTools : Message π → Message π
  | .system origin message => .system origin { message with toolsAdded := [], toolsRemoved := [] }
  | message => message

end Message

structure Context (π : Type u) where
  messages : List (Message π)
  tools : List (Tool π)
deriving DecidableEq

/-! ### Tool declarations -/

structure ToolStateChanges (π : Type u) where
  toolsAdded : List (Declaration π)
  toolsRemoved : List JsString
deriving DecidableEq

def noChanges : ToolStateChanges π := ⟨[], []⟩

/-- The tools after every change the messages declare. -/
def getCurrentTools (messages : List (Message π)) : List (Declaration π) :=
  (messages.foldl (fun tools message => match message with
    | .system _ message =>
      let kept := message.toolsRemoved.foldl (fun tools name => PropertyList.erase name tools) tools
      message.toolsAdded.foldl (fun tools tool => JsMap.set tool.name tool tools) kept
    | _ => tools) ([] : List (JsString × Declaration π))).map Prod.snd

variable [DecidableEq π]

/-- Tools that `others` does not have with the same declaration. -/
def missingFrom (others tools : List (Declaration π)) : List (Declaration π) :=
  let byName := JsMap.ofPairs (others.map fun tool => (tool.name, tool))
  tools.filter fun tool => decide (PropertyList.get tool.name byName ≠ some tool)

def getToolStateChanges (previous current : List (Declaration π)) : ToolStateChanges π :=
  ⟨missingFrom previous current, (missingFrom current previous).map fun tool => tool.name⟩

omit [DecidableEq π] in
/-- The place of the last system message. -/
def findLastSystem : List (Message π) → Option Nat
  | [] => none
  | message :: rest => match findLastSystem rest with
    | some index => some (index + 1)
    | none => if message.isSystem then some 0 else none

def withToolChanges (changes : ToolStateChanges π) : Message π → Message π
  | .system origin message =>
    .system origin { message with toolsAdded := changes.toolsAdded, toolsRemoved := changes.toolsRemoved }
  | message => message

def declaresTools : Message π → Bool
  | .system _ message => !message.toolsAdded.isEmpty || !message.toolsRemoved.isEmpty
  | _ => false

/-- Pending messages with the difference between the tools declared so far and the context's
tools on the last of their system messages, or on a new one. -/
def declareToolChanges (context : Context π) (pendingMessages : List (Message π)) : List (Message π) :=
  let systemIndex := findLastSystem pendingMessages
  let baseline := match systemIndex with
    | some index => pendingMessages.modify index (withToolChanges noChanges)
    | none => pendingMessages
  let changes := getToolStateChanges (getCurrentTools (context.messages ++ baseline))
    (context.tools.map fun tool => tool.declaration)
  let unchanged := changes.toolsAdded.isEmpty && changes.toolsRemoved.isEmpty
  match systemIndex with
  | some index =>
    if unchanged && !(pendingMessages[index]?.any declaresTools) then pendingMessages
    else baseline.modify index (withToolChanges changes)
  | none =>
    if unchanged then pendingMessages
    else
      let index := (pendingMessages.findIdx? fun message => !message.isSystem).getD pendingMessages.length
      pendingMessages.take index ++
        .system .declared ⟨.text [], changes.toolsAdded, changes.toolsRemoved⟩ :: pendingMessages.drop index

end Hummin.AgentLoop
