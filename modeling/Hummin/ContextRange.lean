/-
The model context of a conversation, kept from one read to the next. A range holds the entries
from the newest head marker's head through its tail and what was derived from them; commits
and reads extend it, cut it off or derive it again.
-/
import Hummin.JsMap
import Hummin.ProviderTranscript

namespace Hummin.ContextRange

open Provider (StopReason)

structure ToolCall where
  id : JsString
  name : JsString
deriving DecidableEq

/-- A model message; `ref` tells message objects apart. -/
inductive Message
  | system (ref : Nat)
  | user (ref : Nat)
  | assistant (ref : Nat) (stopReason : StopReason) (calls : List ToolCall) (timestamp : Nat)
  | toolResult (ref : Nat) (toolCallId : JsString)
  | missingResult (toolCallId : JsString) (toolName : JsString) (timestamp : Nat)
deriving DecidableEq

namespace Message

def isSystem : Message → Bool
  | .system _ => true
  | _ => false

def isUser : Message → Bool
  | .user _ => true
  | _ => false

def isAssistant : Message → Bool
  | .assistant .. => true
  | _ => false

/-- The call a tool result is for. -/
def resultOf : Message → Option JsString
  | .toolResult _ toolCallId => some toolCallId
  | .missingResult toolCallId _ _ => some toolCallId
  | _ => none

end Message

inductive EditAction
  | omit
  | replace (messages : List Message)
deriving DecidableEq

structure ContextEdit where
  target : Nat
  action : EditAction
deriving DecidableEq

structure EntryRecord where
  id : Nat
  kind : JsString
  model : Option (List Message)
  head : Option Nat
  edits : Option (List ContextEdit)
deriving DecidableEq

def systemKind : JsString := js "pi.system".toList

/-- A baseline's system message, `absent` when the range cannot have one, or `open` while a
later entry may be one. -/
inductive Baseline
  | open
  | absent
  | message (message : Message)
deriving DecidableEq

/-- A context read: the entries it scanned and what was derived from them. -/
structure Range where
  head : Option EntryRecord
  tail : Nat
  entries : List EntryRecord
  active : List EntryRecord
  contributions : List (List Message)
  messages : List Message
  edited : List Nat
  settled : List Message
  openMessages : List Message
  baseline : Baseline
  current : Bool
deriving DecidableEq

/-! ### Deriving a range -/

def isExcluded (stopReason : StopReason) : Bool :=
  decide (stopReason = .aborted ∨ stopReason = .error ∨ stopReason = .deferred)

/-- One active entry's messages after its edit and excluded stop reasons. -/
def contribute (entry : EntryRecord) (edit : Option ContextEdit) : List Message :=
  let contributed := match edit.map fun edit => edit.action with
    | some .omit => []
    | some (.replace messages) => messages
    | none => entry.model.getD []
  contributed.filter fun message => match message with
    | .assistant _ stopReason _ _ => !isExcluded stopReason
    | _ => true

/-- The result of a call among the messages before the next assistant. -/
def resultFor (messages : List Message) (call : ToolCall) (timestamp : Nat) : Message :=
  ((messages.takeWhile fun message => !message.isAssistant).find? fun message =>
    decide (message.resultOf = some call.id)).getD (.missingResult call.id call.name timestamp)

/-- Each assistant's results come directly after it in call order. -/
def orderToolResults : List Message → List Message
  | [] => []
  | message :: rest =>
    if message.resultOf.isSome then orderToolResults rest
    else match message with
      | .assistant _ _ calls timestamp =>
        message :: calls.map (fun call => resultFor rest call timestamp) ++ orderToolResults rest
      | _ => message :: orderToolResults rest

def findLastIndex (p : Message → Bool) : List Message → Option Nat
  | [] => none
  | message :: rest => match findLastIndex p rest with
    | some index => some (index + 1)
    | none => if p message then some 0 else none

/-- The ordered messages before the last assistant message of `openMessages` are settled. -/
def settle (settled openMessages : List Message) : List Message × List Message :=
  match findLastIndex Message.isAssistant openMessages with
  | some (last + 1) =>
    (settled ++ orderToolResults (openMessages.take (last + 1)), openMessages.drop (last + 1))
  | _ => (settled, openMessages)

/-- The head marker and the range's other entries, or the whole range without a marker. -/
def selectActive (head : Option EntryRecord) (range : List EntryRecord) : List EntryRecord :=
  match head with
  | none => range
  | some head => head :: range.filter fun entry => entry.head.isNone

def carriesSystemMessage (entry : EntryRecord) : Bool :=
  (entry.model.getD []).any Message.isSystem ||
    (entry.edits.getD []).any fun edit => match edit.action with
      | .replace messages => messages.any Message.isSystem
      | .omit => false

def findBaseline (head : Option EntryRecord) : List EntryRecord → Baseline
  | [] => .open
  | entry :: rest =>
    if head.any fun marker => decide (entry.id ≤ marker.id) then findBaseline head rest
    else if entry.kind = systemKind then
      match (entry.model.getD []).find? Message.isSystem with
      | some message => .message message
      | none => .absent
    else if head.isNone && carriesSystemMessage entry then .absent
    else findBaseline head rest

/-- Move the first system message to the front. -/
def leadWithSystem (messages : List Message) (baseline : Baseline) : List Message :=
  match messages.findIdx? Message.isSystem with
  | some (index + 1) =>
    match messages[index + 1]? with
    | some system =>
      if .message system ≠ baseline ∧ (messages.take (index + 1)).any (fun message => !message.isUser) then
        messages
      else system :: messages.take (index + 1) ++ messages.drop (index + 2)
    | none => messages
  | _ => messages

/-- The edits of the range by target, the newest of each. -/
def collectEdits (entries : List EntryRecord) : List (Nat × ContextEdit) :=
  entries.foldl (fun edits entry =>
    (entry.edits.getD []).foldl (fun edits edit => JsMap.set edit.target edit edits) edits) []

def deriveRange (head : Option EntryRecord) (tail : Nat) (entries : List EntryRecord) (current : Bool) : Range :=
  let edits := collectEdits entries
  let active := selectActive head entries
  let contributions := active.map fun entry => contribute entry (PropertyList.get entry.id edits)
  let parts := settle [] contributions.flatten
  let baseline := findBaseline head active
  ⟨head, tail, entries, active, contributions,
    leadWithSystem (parts.1 ++ orderToolResults parts.2) baseline, PropertyList.keys edits, parts.1, parts.2,
    baseline, current⟩

/-! ### Keeping a range -/

def extendRange (previous : Range) (head : Option EntryRecord) (tail : Nat) (added : List EntryRecord)
    (current : Bool) : Range :=
  let entries := previous.entries ++ added
  if added.any fun entry => entry.edits.isSome || entry.head.isSome || decide (entry.id ∈ previous.edited) then
    deriveRange head tail entries current
  else
    let contributions := added.map fun entry => contribute entry none
    let parts := settle previous.settled (previous.openMessages ++ contributions.flatten)
    let baseline := match previous.baseline with
      | .open => findBaseline head added
      | known => known
    ⟨head, tail, entries, previous.active ++ added, previous.contributions ++ contributions,
      leadWithSystem (parts.1 ++ orderToolResults parts.2) baseline, previous.edited, parts.1, parts.2,
      baseline, current⟩

/-- The newest marker of some entries, `head` before them. -/
def newestMarker (head : Option EntryRecord) (entries : List EntryRecord) : Option EntryRecord :=
  entries.foldl (fun head entry => if entry.head.isSome then some entry else head) head

/-- A range with the entries of a commit; `none` drops the range. -/
def advanceRange (range : Range) (appended : List EntryRecord) : Option Range :=
  match appended.getLast? with
  | none => some range
  | some last =>
    if ¬ range.current then some range
    else
      let head := newestMarker range.head appended
      if head.map (fun marker => marker.id) = range.head.map fun marker => marker.id then
        some (extendRange range head last.id appended true)
      else
        let start := (head.bind fun marker => marker.head).getD 0
        if range.head.any fun marker => decide (start < marker.head.getD 0) then none
        else some (deriveRange head last.id
          ((range.entries ++ appended).filter fun entry => decide (start ≤ entry.id)) true)

/-! ### Commits and reads -/

/-- The visible entries with ids from `low` through `high`. -/
def scan (entries : List EntryRecord) (low high : Nat) : List EntryRecord :=
  entries.filter fun entry => decide (low ≤ entry.id) && decide (entry.id ≤ high)

/-- The newest head marker at or before `tail`. -/
def latestHeadMarker (entries : List EntryRecord) (tail : Nat) : Option EntryRecord :=
  newestMarker none (scan entries 0 tail)

/-- Where the range of a marker starts. -/
def startOf (head : Option EntryRecord) : Nat := (head.bind fun marker => marker.head).getD 0

/-- The bounds a read has captured; `current` is unset for a read at an earlier entry. -/
structure Bounds where
  head : Option EntryRecord
  tail : Nat
  current : Bool

/-- A read under way: it has taken the kept range, captured its bounds on the line, or
returned its range to the caller that may keep it. -/
inductive Read
  | opened (at' : Option Nat) (previous : Option Range)
  | bounded (bounds : Bounds) (previous : Option Range)
  | returned (range : Range)

/-- The conversation, the kept range and the reads under way. -/
structure State where
  entries : List EntryRecord
  kept : Option Range
  reads : List Read

def latestId (entries : List EntryRecord) : Option Nat := entries.getLast?.map fun entry => entry.id

/-- A range that missed a commit is not current; nor is one when the newest entry is not
`known`. -/
def recheck (entries : List EntryRecord) (known : Bool) (range : Range) : Range :=
  if range.current ∧ ¬ (known ∧ latestId entries = some range.tail) then { range with current := false } else range

/-- The range `readContextFrom` makes within captured bounds, with the entries stored by now. -/
def readRange (entries : List EntryRecord) (bounds : Bounds) : Option Range → Range
  | none => deriveRange bounds.head bounds.tail (scan entries (startOf bounds.head) bounds.tail) bounds.current
  | some previous =>
    if previous.head.map (fun marker => marker.id) ≠ bounds.head.map fun marker => marker.id then
      deriveRange bounds.head bounds.tail (scan entries (startOf bounds.head) bounds.tail) bounds.current
    else if bounds.tail = previous.tail then previous
    else if bounds.tail < previous.tail then
      deriveRange bounds.head bounds.tail
        (previous.entries.filter fun entry => decide (entry.id ≤ bounds.tail)) false
    else extendRange previous bounds.head bounds.tail (scan entries (previous.tail + 1) bounds.tail) bounds.current

inductive Input
  | commit (appended : List EntryRecord)
  | open (at' : Option Nat)
  | capture (index : Nat)
  | derive (index : Nat) (known : Bool)
  | keep (index : Nat) (known : Bool)
  | abandon (index : Nat)
  | drop

/-- The ids of a commit's entries are new and ascending, and a head is an earlier entry or the
entry itself. -/
def isAppended (entries appended : List EntryRecord) : Prop :=
  (entries ++ appended).Pairwise (fun entry later => entry.id < later.id) ∧
    ∀ entry ∈ appended, ∀ head ∈ entry.head, head ≤ entry.id

instance (entries appended : List EntryRecord) : Decidable (isAppended entries appended) :=
  inferInstanceAs (Decidable (_ ∧ _))

/-- The entry a read is cut off at, if it is visible, or the newest one. -/
def readTail (entries : List EntryRecord) : Option Nat → Option Nat
  | none => latestId entries
  | some at' => if at' ∈ entries.map fun entry => entry.id then some at' else none

/-- The next stage of a read; `none` ends it, as an entry that is not visible and an empty
conversation do. -/
def captureBounds (entries : List EntryRecord) (at' : Option Nat) (previous : Option Range) : Option Read :=
  (readTail entries at').map fun tail => .bounded ⟨latestHeadMarker entries tail, tail, at'.isNone⟩ previous

/-- Keep a range unless a newer one is kept. -/
def install (kept : Option Range) (range : Range) : Option Range :=
  if kept.all fun other => decide (other.tail ≤ range.tail) then some range else kept

def step (state : State) : Input → Option State
  | .commit appended =>
    if isAppended state.entries appended then
      some { state with
        entries := state.entries ++ appended
        kept := state.kept.bind fun range => advanceRange range appended }
    else none
  | .open at' => some { state with reads := state.reads ++ [.opened at' state.kept] }
  | .capture index => match state.reads[index]? with
    | some (.opened at' previous) => match captureBounds state.entries at' previous with
      | some read => some { state with reads := state.reads.set index read }
      | none => some { state with reads := state.reads.eraseIdx index }
    | _ => none
  | .derive index known => match state.reads[index]? with
    | some (.bounded bounds previous) =>
      let range := recheck state.entries known (readRange state.entries bounds previous)
      some { state with reads := state.reads.set index (.returned range) }
    | _ => none
  | .keep index known => match state.reads[index]? with
    | some (.returned range) =>
      some { state with
        reads := state.reads.eraseIdx index
        kept := install state.kept (recheck state.entries known range) }
    | _ => none
  | .abandon index => some { state with reads := state.reads.eraseIdx index }
  | .drop => some { state with kept := none }

def start : State := ⟨[], none, []⟩

end Hummin.ContextRange
