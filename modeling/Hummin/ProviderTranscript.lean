/-
The transcript a provider gets: images a model cannot take are named, other models' thinking
is dropped, tool-call ids are rewritten, and every tool call is given a result.
-/
import Hummin.JsMap
import Hummin.JsonRepair

namespace Hummin.Provider

inductive StopReason
  | pending
  | stop
  | length
  | toolUse
  | error
  | aborted
  | deferred
deriving DecidableEq

/-- A block of a user message or a tool result. -/
inductive Part
  | text (text : JsString) (textSignature : Option JsString)
  | image (data : JsString) (mimeType : JsString)
deriving DecidableEq

/-- A message's content, `absent` where an untyped caller left it out. -/
inductive Content
  | absent
  | text (text : JsString)
  | parts (parts : List Part)
deriving DecidableEq

/-- `rest` stands for the arguments and the fields that pass through. -/
structure ToolCall where
  id : JsString
  name : JsString
  thoughtSignature : Option JsString
  rest : Nat
deriving DecidableEq

inductive Block
  | text (text : JsString) (textSignature : Option JsString)
  | thinking (thinking : JsString) (thinkingSignature : Option JsString) (redacted : Bool)
  | toolCall (call : ToolCall)
deriving DecidableEq

structure AssistantMessage where
  content : Option (List Block)
  api : JsString
  provider : JsString
  model : JsString
  stopReason : StopReason
  rest : Nat
deriving DecidableEq

structure ToolResultMessage where
  toolCallId : JsString
  toolName : JsString
  content : Option (List Part)
  isError : Bool
  timestamp : Nat
  rest : Nat
deriving DecidableEq

inductive Message
  | system (content : Content) (rest : Nat)
  | user (content : Content) (rest : Nat)
  | assistant (message : AssistantMessage)
  | toolResult (message : ToolResultMessage)
deriving DecidableEq

/-- The model the transcript is for; `images`: its input takes images. -/
structure Model where
  id : JsString
  api : JsString
  provider : JsString
  images : Bool

/-- A tool-call-id normaliser, for a call of `source`. -/
abbrev Normalizer := JsString → AssistantMessage → JsString

def nonVisionUserImagePlaceholder : JsString :=
  js "(image omitted: model does not support images)".toList

def nonVisionToolImagePlaceholder : JsString :=
  js "(tool image omitted: model does not support images)".toList

def noResultProvided : JsString :=
  js "No result provided".toList

/-- A JavaScript string that is there and not empty. -/
def isTruthy : Option JsString → Bool
  | some (_ :: _) => true
  | _ => false

/-! ### Images -/

/-- The loop of `replaceImagesWithPlaceholder`. -/
def replaceImagesFrom (placeholder : JsString) (previousWasPlaceholder : Bool) : List Part → List Part
  | [] => []
  | .image .. :: rest =>
    if previousWasPlaceholder then replaceImagesFrom placeholder true rest
    else .text placeholder none :: replaceImagesFrom placeholder true rest
  | .text text signature :: rest =>
    .text text signature :: replaceImagesFrom placeholder (decide (text = placeholder)) rest

def replaceImagesWithPlaceholder (content : List Part) (placeholder : JsString) : List Part :=
  replaceImagesFrom placeholder false content

/-- The content an untyped caller left out is empty. -/
def Message.normalized : Message → Message
  | .system .absent rest => .system (.parts []) rest
  | .user .absent rest => .user (.parts []) rest
  | .assistant message => .assistant { message with content := some (message.content.getD []) }
  | .toolResult message => .toolResult { message with content := some (message.content.getD []) }
  | message => message

/-- `downgradeUnsupportedImages`, for one message. -/
def downgradeUnsupportedImages (model : Model) (message : Message) : Message :=
  if model.images then message
  else match message with
    | .user (.parts parts) rest =>
      .user (.parts (replaceImagesWithPlaceholder parts nonVisionUserImagePlaceholder)) rest
    | .toolResult message =>
      .toolResult { message with content := message.content.map fun parts =>
        replaceImagesWithPlaceholder parts nonVisionToolImagePlaceholder }
    | message => message

/-- What the two passes work on. -/
def imageAware (model : Model) (message : Message) : Message :=
  downgradeUnsupportedImages model message.normalized

/-! ### The first pass -/

def AssistantMessage.isSameModel (model : Model) (message : AssistantMessage) : Bool :=
  decide (message.provider = model.provider) && decide (message.api = model.api) &&
    decide (message.model = model.id)

/-- The id a call goes out with. -/
def outputId (model : Model) (normalize : Option Normalizer) (message : AssistantMessage) (id : JsString) :
    JsString :=
  match normalize with
  | none => id
  | some normalize => if message.isSameModel model then id else normalize id message

/-- One block of an assistant message: the id map after it, and what is left of it. -/
def transformBlock (model : Model) (normalize : Option Normalizer) (message : AssistantMessage)
    (idMap : List (JsString × JsString)) : Block → List (JsString × JsString) × List Block
  | .thinking thinking signature redacted =>
    if ¬ message.isSameModel model then (idMap, [])
    else if redacted || isTruthy signature then (idMap, [.thinking thinking signature redacted])
    else if JsonRepair.isBlank thinking then (idMap, [])
    else (idMap, [.thinking thinking signature redacted])
  | .text text signature =>
    if message.isSameModel model then (idMap, [.text text signature]) else (idMap, [.text text none])
  | .toolCall call =>
    let unsigned := if ¬ message.isSameModel model ∧ isTruthy call.thoughtSignature then
        { call with thoughtSignature := none } else call
    let normalizedId := outputId model normalize message call.id
    if normalizedId ≠ call.id then
      (JsMap.set call.id normalizedId idMap, [.toolCall { unsigned with id := normalizedId }])
    else (idMap, [.toolCall unsigned])

def transformBlocks (model : Model) (normalize : Option Normalizer) (message : AssistantMessage) :
    List (JsString × JsString) → List Block → List (JsString × JsString) × List Block
  | idMap, [] => (idMap, [])
  | idMap, block :: rest =>
    let first := transformBlock model normalize message idMap block
    let others := transformBlocks model normalize message first.1 rest
    (others.1, first.2 ++ others.2)

/-- The id map and the messages it rewrites, in order. -/
def firstPass (model : Model) (normalize : Option Normalizer) :
    List (JsString × JsString) → List Message → List Message
  | _, [] => []
  | idMap, .assistant message :: rest =>
    let transformed := transformBlocks model normalize message idMap (message.content.getD [])
    .assistant { message with content := some transformed.2 } ::
      firstPass model normalize transformed.1 rest
  | idMap, .toolResult message :: rest =>
    let normalizedId := PropertyList.get message.toolCallId idMap
    .toolResult (match normalizedId with
      | some (unit :: units) => { message with toolCallId := unit :: units }
      | _ => message) :: firstPass model normalize idMap rest
  | idMap, message :: rest => message :: firstPass model normalize idMap rest

/-! ### The second pass -/

def AssistantMessage.toolCalls (message : AssistantMessage) : List ToolCall :=
  (message.content.getD []).filterMap fun block => match block with
    | .toolCall call => some call
    | _ => none

/-- An incomplete turn, which is not replayed. -/
def AssistantMessage.isErrored (message : AssistantMessage) : Bool :=
  decide (message.stopReason = .error ∨ message.stopReason = .aborted)

structure Pairing where
  result : List Message
  pendingToolCalls : List ToolCall
  existingToolResultIds : List JsString
  heldSystemMessages : List Message

/-- The result made for a call without one; `now` is the time of the call. -/
def synthetic (now : Nat) (call : ToolCall) : Message :=
  .toolResult ⟨call.id, call.name, some [.text noResultProvided none], true, now, 0⟩

namespace Pairing

def start : Pairing := ⟨[], [], [], []⟩

def push (pairing : Pairing) (message : Message) : Pairing :=
  { pairing with result := pairing.result ++ [message] }

def closePendingToolCalls (now : Nat) (pairing : Pairing) : Pairing where
  result := pairing.result ++
    ((pairing.pendingToolCalls.filter fun call => call.id ∉ pairing.existingToolResultIds).map
      (synthetic now)) ++ pairing.heldSystemMessages
  pendingToolCalls := []
  existingToolResultIds := if pairing.pendingToolCalls = [] then pairing.existingToolResultIds else []
  heldSystemMessages := []

def step (now : Nat) (pairing : Pairing) : Message → Pairing
  | .assistant message =>
    let closed := pairing.closePendingToolCalls now
    if message.isErrored then closed
    else if message.toolCalls = [] then closed.push (.assistant message)
    else { closed with
      pendingToolCalls := message.toolCalls
      existingToolResultIds := [] }.push (.assistant message)
  | .toolResult message =>
    { pairing with existingToolResultIds := message.toolCallId :: pairing.existingToolResultIds }.push
      (.toolResult message)
  | .system content rest =>
    if pairing.pendingToolCalls = [] then pairing.push (.system content rest)
    else { pairing with
      heldSystemMessages := pairing.heldSystemMessages ++ [.system content rest] }
  | .user content rest => (pairing.closePendingToolCalls now).push (.user content rest)

end Pairing

def secondPass (now : Nat) (messages : List Message) : List Message :=
  ((messages.foldl (Pairing.step now) Pairing.start).closePendingToolCalls now).result

def transformMessages (model : Model) (normalize : Option Normalizer) (now : Nat)
    (messages : List Message) : List Message :=
  secondPass now (firstPass model normalize [] (messages.map (imageAware model)))

end Hummin.Provider
