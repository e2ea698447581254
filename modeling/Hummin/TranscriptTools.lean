/-
Tool declarations over a transcript. System messages declare tools and take them back; a
difference between two tool sets is declared by one more message, and a request may hold the
tools of the first system messages itself and leave the others in place.
-/
import Hummin.Transcript

namespace Hummin.TranscriptTools

universe u v

open Session (Content Instant)

variable {ε : Type u} {ω : Type v}

/-- A tool. `rest` is what a declaration does not have: its executable and display fields and
the marks of its schema. -/
structure Tool (ε : Type u) where
  name : JsString
  description : JsString
  parameters : JsonValue
  constrainedSampling : Option JsonValue
  rest : Option ε
deriving DecidableEq

structure SystemMessage (ε : Type u) where
  content : Content
  sections : Option (List (JsString × Option JsString))
  toolsAdded : Option (List (Tool ε))
  toolsRemoved : Option (List JsString)
  timestamp : Instant
deriving DecidableEq

/-- A message of a transcript; only system messages are read. -/
inductive Message (ε : Type u) (ω : Type v)
  | system (message : SystemMessage ε)
  | other (message : ω)
deriving DecidableEq

namespace SystemMessage

def added (message : SystemMessage ε) : List (Tool ε) := message.toolsAdded.getD []

def removed (message : SystemMessage ε) : List JsString := message.toolsRemoved.getD []

/-- The message but for its tools. -/
def prompt (message : SystemMessage ε) : Session.SystemMessage :=
  ⟨some message.content, message.sections, none, none, message.timestamp⟩

end SystemMessage

def Message.system? : Message ε ω → Option (SystemMessage ε)
  | .system message => some message
  | .other _ => none

def systemMessages (messages : List (Message ε ω)) : List (SystemMessage ε) := messages.filterMap Message.system?

/-! ### The current tools -/

def applyTools (tools : List (JsString × Tool ε)) (message : SystemMessage ε) : List (JsString × Tool ε) :=
  JsMap.setAll Tool.name message.added (JsMap.eraseAll message.removed tools)

def currentToolMap (messages : List (SystemMessage ε)) : List (JsString × Tool ε) := messages.foldl applyTools []

def getCurrentTools (messages : List (Message ε ω)) : List (Tool ε) :=
  (currentToolMap (systemMessages messages)).map Prod.snd

variable {tools : List (JsString × Tool ε)}

theorem keyed_applyTools (htools : JsMap.Keyed Tool.name tools)
    (message : SystemMessage ε) : JsMap.Keyed Tool.name (applyTools tools message) :=
  (htools.eraseAll message.removed).setAll message.added

theorem keyed_foldl (htools : JsMap.Keyed Tool.name tools)
    (messages : List (SystemMessage ε)) : JsMap.Keyed Tool.name (messages.foldl applyTools tools) := by
  induction messages generalizing tools with
  | nil => exact htools
  | cons message rest ih => exact ih (keyed_applyTools htools message)

theorem keyed_currentToolMap (messages : List (SystemMessage ε)) :
    JsMap.Keyed Tool.name (currentToolMap messages) :=
  keyed_foldl (JsMap.keyed_nil Tool.name) messages

/-! ### The current system message -/

/-- One message that holds the current prompt and tools. -/
def replayedSystem (messages : List (SystemMessage ε)) : SystemMessage ε :=
  let prompts := messages.map SystemMessage.prompt
  let sections := Session.currentSections prompts
  let tools := (currentToolMap messages).map Prod.snd
  { content := .text (Session.currentText prompts)
    sections := if sections.isEmpty then none else some (Session.sectionsObject sections)
    toolsAdded := if tools.isEmpty then none else some tools
    toolsRemoved := none
    timestamp := (messages.head?.map SystemMessage.timestamp).getD 0 }

def getCurrentSystemMessage (messages : List (Message ε ω)) : Option (SystemMessage ε) :=
  let systems := systemMessages messages
  if systems.isEmpty ∧ ((currentToolMap systems).map Prod.snd).isEmpty then none else some (replayedSystem systems)

/-- The current system message leads, and the others are dropped. -/
def collapseSystemMessages (messages : List (Message ε ω)) : List (Message ε ω) :=
  let others := messages.filter fun message => message.system?.isNone
  match getCurrentSystemMessage messages with
  | some head => .system head :: others
  | none => others

/-! ### Differences -/

/-- A tool as it is declared to the model. -/
def toToolDeclaration (tool : Tool ε) : Tool ε := { tool with rest := none }

section Changes

variable [DecidableEq ε]

def declarationsEqual (left right : Tool ε) : Bool := decide (toToolDeclaration left = toToolDeclaration right)

structure ToolStateChanges (ε : Type u) where
  toolsAdded : List (Tool ε)
  toolsRemoved : List JsString
deriving DecidableEq

omit [DecidableEq ε] in
/-- Tools by name. -/
def byName (tools : List (Tool ε)) : List (JsString × Tool ε) :=
  JsMap.ofPairs (tools.map fun tool => (tool.name, tool))

/-- A changed definition is a removal followed by an addition. -/
def getToolStateChanges (previous current : List (Tool ε)) : ToolStateChanges ε where
  toolsAdded := (current.filter fun tool =>
    match PropertyList.get tool.name (byName previous) with
    | none => true
    | some previousTool => !declarationsEqual previousTool tool).map toToolDeclaration
  toolsRemoved := (previous.filter fun tool =>
    match PropertyList.get tool.name (byName current) with
    | none => true
    | some currentTool => !declarationsEqual tool currentTool).map fun tool => tool.name

end Changes

/-! ### Requests -/

/-- The names declared so far, and the index of the last message with a removal or a name
declared before. -/
structure NonAdditive where
  declared : List JsString
  last : Option Nat
deriving DecidableEq

namespace NonAdditive

def declare (index : Nat) (found : NonAdditive) (tool : Tool ε) : NonAdditive :=
  ⟨found.declared ++ [tool.name], if tool.name ∈ found.declared then some index else found.last⟩

def message (found : NonAdditive) (entry : SystemMessage ε × Nat) : NonAdditive :=
  let last := if entry.1.removed.isEmpty then found.last else some entry.2
  entry.1.added.foldl (declare entry.2) { found with last := last }

end NonAdditive

def findLastNonAdditiveToolChange (messages : List (SystemMessage ε)) : Option Nat :=
  (messages.zipIdx.foldl NonAdditive.message ⟨[], none⟩).last

inductive TranscriptToolSupport
  | none
  | additions
  | changes
deriving DecidableEq

structure TranscriptToolSplit (ε : Type u) where
  requestTools : List (Tool ε)
  foldedSystemMessages : Nat
deriving DecidableEq

/-- Whether a transcript starts with a system message. -/
def startsWithSystem (messages : List (Message ε ω)) : Bool := messages.head?.any fun message => message.system?.isSome

def resolveTranscriptTools (messages : List (Message ε ω)) : TranscriptToolSupport → TranscriptToolSplit ε
  | .none => ⟨getCurrentTools messages, (systemMessages messages).length⟩
  | .changes => ⟨[], 0⟩
  | .additions =>
    let systems := systemMessages messages
    let changed := match findLastNonAdditiveToolChange systems with
      | none => 0
      | some index => index + 1
    let folded := max (if startsWithSystem messages then 1 else 0) changed
    ⟨(currentToolMap (systems.take folded)).map Prod.snd, folded⟩

end Hummin.TranscriptTools
