/-
The inbox of a conversation: submissions are admitted at once or queued, a boundary places
queued items as entries, and the submission records follow. One commit stages its changes of
submissions and applies them in order when it is assembled; a commit that throws leaves
everything as it was.
-/
import Hummin.JsString
import Hummin.Machine
import Hummin.Positions

namespace Hummin.Inbox

/-- How many queued items of one mode a boundary places. -/
inductive QueueMode
  | all
  | oneAtATime
deriving DecidableEq

structure QueueModes where
  steeringMode : QueueMode
  followUpMode : QueueMode

/-- Where an entry starts the active context: at itself or at an earlier entry. -/
inductive Head
  | self
  | entry (id : Nat)
deriving DecidableEq

/-- The messages of an entry: as they were given, or the user message of an input. -/
inductive Messages
  | given (messages : Nat)
  | user (content : Nat) (timestamp : Nat)
deriving DecidableEq

structure EntryDraft where
  kind : JsString
  model : Option Messages
  head : Option Head
  edits : Option Nat
  data : Option Nat
deriving DecidableEq

structure EntryRecord where
  id : Nat
  kind : JsString
  model : Option Messages
  head : Option Nat
  edits : Option Nat
  data : Option Nat
deriving DecidableEq

/-- The kind and data an input is placed with. -/
structure InputEntry where
  kind : JsString
  data : Option Nat
deriving DecidableEq

inductive InputMode
  | steer
  | followUp
deriving DecidableEq

/-- A queued submission. -/
inductive InboxItem
  | input (id : Nat) (mode : InputMode) (content : Nat) (entry : Option InputEntry)
  | write (id : Nat) (entry : EntryDraft)
deriving DecidableEq

namespace InboxItem

def id : InboxItem → Nat
  | .input id .. => id
  | .write id _ => id

def isWrite : InboxItem → Bool
  | .write .. => true
  | .input .. => false

def hasMode (mode : InputMode) : InboxItem → Bool
  | .input _ own .. => decide (own = mode)
  | .write .. => false

end InboxItem

inductive SubmissionType
  | input
  | write
  | continue
deriving DecidableEq

inductive Status
  | queued
  | placed
  | done
  | unanswered
deriving DecidableEq

structure SubmissionRecord where
  id : Nat
  requestId : Option JsString
  type : SubmissionType
  status : Status
  entry : Option Nat
  answer : Option Nat
  reason : Option JsString
deriving DecidableEq

namespace SubmissionRecord

def isSettled (record : SubmissionRecord) : Bool :=
  decide (record.status = .done ∨ record.status = .unanswered)

end SubmissionRecord

/-- A staged change of a submission: a settlement or a placement. -/
inductive SubmissionChange
  | done (answer : Nat)
  | unanswered (reason : JsString)
  | placed (entry : Nat)
deriving DecidableEq

/-- Why an assembly throws. -/
inductive AssemblyError
  | missing (id : Nat)
  | notQueued (id : Nat)
  | notPlaced (id : Nat)

def applySubmissionChange (current : SubmissionRecord) (change : SubmissionChange) :
    Except AssemblyError SubmissionRecord :=
  if current.isSettled then .ok current
  else match change with
    | .placed entry =>
      if current.status ≠ .queued then .error (.notQueued current.id)
      else .ok { current with
        status := if current.type = .input then .placed else .done
        entry := some entry }
    | .done answer =>
      if current.status ≠ .placed then .error (.notPlaced current.id)
      else .ok { current with status := .done, answer := some answer }
    | .unanswered reason => .ok { current with status := .unanswered, reason := some reason }

/-! ### Commits -/

/-- What is stored of one conversation; `nextId` is the next id the store mints, `running`
whether it has a run. -/
structure State where
  nextId : Nat
  entries : List EntryRecord
  submissions : List SubmissionRecord
  items : List InboxItem
  running : Bool

def start : State := ⟨0, [], [], [], false⟩

/-- A commit being made. -/
structure Tx extends State where
  submissionChanges : List (Nat × SubmissionChange)

namespace Tx

def ofState (state : State) : Tx := ⟨state, []⟩

/-- The newest head marker's `head`. -/
def latestHead (tx : Tx) : Option Nat := tx.entries.reverse.findSome? fun entry => entry.head

def appendEntry (tx : Tx) (draft : EntryDraft) : EntryRecord × Tx :=
  let entry : EntryRecord := ⟨tx.nextId, draft.kind, draft.model,
    draft.head.map fun head => match head with
      | .self => tx.nextId
      | .entry id => id, draft.edits, draft.data⟩
  (entry, { tx with nextId := tx.nextId + 1, entries := tx.entries ++ [entry] })

/-- The record of a new submission gets a fresh id. -/
def createSubmission (tx : Tx) (requestId : Option JsString) (type : SubmissionType) (status : Status)
    (entry : Option Nat) (reason : Option JsString) : Nat × Tx :=
  (tx.nextId, { tx with
    nextId := tx.nextId + 1
    submissions := tx.submissions ++ [⟨tx.nextId, requestId, type, status, entry, none, reason⟩] })

def stage (tx : Tx) (id : Nat) (change : SubmissionChange) : Tx :=
  { tx with submissionChanges := tx.submissionChanges ++ [(id, change)] }

def push (tx : Tx) (item : InboxItem) : Tx := { tx with items := tx.items ++ [item] }

/-- `startRun`: a generation task is created, which takes an id. -/
def startRun (tx : Tx) : Tx := { tx with nextId := tx.nextId + 1, running := true }

end Tx

/-- One staged change against the latest candidate record. -/
def assembleChange (submissions : List SubmissionRecord) (staged : Nat × SubmissionChange) :
    Except AssemblyError (List SubmissionRecord) :=
  match submissions.find? fun record => record.id = staged.1 with
  | none => .error (.missing staged.1)
  | some current => (applySubmissionChange current staged.2).map fun next =>
    submissions.map fun record => if record.id = staged.1 then next else record

def assemble (tx : Tx) : Except AssemblyError State :=
  (tx.submissionChanges.foldlM assembleChange tx.submissions).map fun submissions =>
    { tx.toState with submissions }

/-! ### Boundaries -/

inductive BoundaryKind
  | postTools
  | final
deriving DecidableEq

def stale : SubmissionChange := .unanswered (js "stale".toList)

def hasQueuedReset (items : List InboxItem) : Bool :=
  items.any fun item => match item with
    | .write _ entry => decide (entry.head = some .self)
    | .input .. => false

/-- A head before the active range, which starts at `head`. -/
def isStale (head : Option Nat) (entry : EntryDraft) : Bool :=
  match entry.head, head with
  | some (.entry target), some head => decide (target < head)
  | _, _ => false

def isDisplayOnly (entry : EntryDraft) : Bool :=
  decide (entry.model = none) && decide (entry.head = none) && decide (entry.edits = none)

def userKind : JsString := js "pi.user".toList

def appendInput (tx : Tx) (content : Nat) (entry : Option InputEntry) (now : Nat) : EntryRecord × Tx :=
  match entry with
  | none => tx.appendEntry ⟨userKind, some (.user content now), none, none, none⟩
  | some entry => tx.appendEntry ⟨entry.kind, some (.user content now), none, none, entry.data⟩

def pick (items : List InboxItem) (mode : InputMode) (queueMode : QueueMode) : List Nat :=
  match queueMode with
  | .all => indexesWhere (InboxItem.hasMode mode) items
  | .oneAtATime => (indexesWhere (InboxItem.hasMode mode) items).take 1

/-- The state of the placing loops: the head seen so far and what was placed. -/
structure Placing where
  tx : Tx
  head : Option Nat
  first : Option Nat
  users : List Nat

/-- One round of the loop over the writes. -/
def placeWrite (items : List InboxItem) (placing : Placing) (index : Nat) : Placing :=
  match items[index]? with
  | some (.write id draft) =>
    if isStale placing.head draft then { placing with tx := placing.tx.stage id stale }
    else
      let (entry, tx) := placing.tx.appendEntry draft
      { placing with
        tx := tx.stage id (.placed entry.id)
        head := if draft.head.isSome then entry.head else placing.head
        first := placing.first <|> some entry.id }
  | _ => placing

/-- One round of the loop over the user items. -/
def placeUser (items : List InboxItem) (now : Nat) (placing : Placing) (index : Nat) : Placing :=
  match items[index]? with
  | some (.input id _ content input) =>
    let (entry, tx) := appendInput placing.tx content input now
    { placing with
      tx := tx.stage id (.placed entry.id)
      first := placing.first <|> some entry.id
      users := placing.users ++ [id] }
  | _ => placing

def boundaryWrites (items : List InboxItem) : List Nat := indexesWhere InboxItem.isWrite items

def boundaryUsers (items : List InboxItem) (modes : QueueModes) (at' : BoundaryKind) : List Nat :=
  (pick items .steer modes.steeringMode ++
    if at' = .final ∨ hasQueuedReset items then pick items .followUp modes.followUpMode else
    []).insertionSort (· ≤ ·)

/-- Place the queued items a boundary selects, then remove them by position, the last one
first. -/
def applyBoundary (tx : Tx) (head : Option Nat) (modes : QueueModes) (at' : BoundaryKind) (now : Nat) :
    Placing :=
  let items := tx.items
  let writes := boundaryWrites items
  let users := boundaryUsers items modes at'
  let written := writes.foldl (placeWrite items) ⟨tx, head, none, []⟩
  let placed := users.foldl (placeUser items now) written
  let removed := (writes ++ users).insertionSort (· ≥ ·)
  { placed with tx := { placed.tx with items := removed.foldl List.eraseIdx items } }

/-! ### Operations -/

inductive WhenBusy
  | steer
  | followUp
  | reject
deriving DecidableEq

inductive SubmissionDraft
  | input (requestId : Option JsString) (content : Nat) (whenBusy : Option WhenBusy)
      (rejectIdle : Bool) (entry : Option InputEntry)
  | write (requestId : Option JsString) (entry : EntryDraft)
  | continue (requestId : Option JsString)

namespace SubmissionDraft

def requestId : SubmissionDraft → Option JsString
  | .input requestId .. => requestId
  | .write requestId _ => requestId
  | .continue requestId => requestId

def type : SubmissionDraft → SubmissionType
  | .input .. => .input
  | .write .. => .write
  | .continue _ => .continue

end SubmissionDraft

inductive AdmissionError
  | inputEntryKind
  | requestType
  | conversationBusy
  | conversationIdle

/-- The reserved kinds start with `pi.`. -/
def checkInputEntry (entry : InputEntry) : Bool :=
  decide (entry.kind ≠ []) && !(js "pi.".toList).isPrefixOf entry.kind

/-- An input whose own entry has a kind it may not have. -/
def SubmissionDraft.hasReservedKind : SubmissionDraft → Bool
  | .input _ _ _ _ (some entry) => !checkInputEntry entry
  | _ => false

/-- Queue a draft behind the others. -/
def enqueue (tx : Tx) (requestId : Option JsString) (draft : SubmissionDraft) : Nat × Tx :=
  let (id, tx) := tx.createSubmission requestId draft.type .queued none none
  match draft with
  | .write _ entry => (id, tx.push (.write id entry))
  | .input _ content whenBusy _ entry =>
    (id, tx.push (.input id (if whenBusy = some .steer then .steer else .followUp) content entry))
  | .continue _ => (id, tx)

/-- Append the entry of a write and create its record, settled. -/
def writeAtOnce (tx : Tx) (requestId : Option JsString) (draft : EntryDraft) : Nat × Tx :=
  let (entry, tx) := tx.appendEntry draft
  tx.createSubmission requestId .write .done (some entry.id) none

/-- What remains of an admission when no request of its id is known. -/
def admitNew (tx : Tx) (draft : SubmissionDraft) (now : Nat) (modes : QueueModes) :
    Except AdmissionError (Nat × Tx) :=
  match draft with
  | .write requestId entry =>
    if isDisplayOnly entry ∧ ¬ hasQueuedReset tx.items then .ok (writeAtOnce tx requestId entry)
    else if tx.running then .ok (enqueue tx requestId draft)
    else if tx.items ≠ [] then
      let (id, queued) := enqueue tx requestId draft
      let placing := applyBoundary queued tx.latestHead modes .final now
      .ok (id, if placing.users ≠ [] then placing.tx.startRun else placing.tx)
    else if isStale tx.latestHead entry then
      .ok (tx.createSubmission requestId .write .unanswered none (some (js "stale".toList)))
    else .ok (writeAtOnce tx requestId entry)
  | .input requestId content whenBusy rejectIdle entry =>
    if tx.running ∧ whenBusy = some .reject then .error .conversationBusy
    else if ¬ tx.running ∧ rejectIdle then .error .conversationIdle
    else if tx.running then .ok (enqueue tx requestId draft)
    else if tx.items ≠ [] then
      let (id, queued) := enqueue tx requestId draft
      let placing := applyBoundary queued tx.latestHead modes .final now
      .ok (id, if placing.users ≠ [] then placing.tx.startRun else placing.tx)
    else
      let (placed, appended) := appendInput tx content entry now
      let (id, created) := appended.createSubmission requestId .input .placed (some placed.id) none
      .ok (id, created.startRun)
  | .continue requestId =>
    if tx.running then .error .conversationBusy
    else
      let (id, created) := tx.createSubmission requestId .continue .placed none none
      .ok (id, (applyBoundary created tx.latestHead modes .final now).tx.startRun)

def admitSubmission (tx : Tx) (draft : SubmissionDraft) (now : Nat) (modes : QueueModes) :
    Except AdmissionError (Nat × Tx) :=
  if draft.hasReservedKind then .error .inputEntryKind
  else match draft.requestId with
    | none => admitNew tx draft now modes
    | some requestId =>
      match tx.submissions.find? fun record => record.requestId = some requestId with
      | none => admitNew tx draft now modes
      | some existing =>
        if existing.type ≠ draft.type then .error .requestType else .ok (existing.id, tx)

def removeInboxItem (tx : Tx) (id : Nat) : Tx :=
  { tx with items := tx.items.eraseP fun item => item.id = id }

/-- `Submissions.abort`. -/
def abort (tx : Tx) (id : Nat) : Tx :=
  match tx.submissions.find? fun record => record.id = id with
  | none => tx
  | some record =>
    if record.status = .queued then
      removeInboxItem (tx.stage id (.unanswered (js "aborted".toList))) id
    else tx

/-- One round of the loop of `withdrawQueuedInputs`, from the last index to the first. -/
def withdrawAt (reason : JsString) (tx : Tx) (index : Nat) : Tx :=
  match tx.items[index]? with
  | some (.input id ..) =>
    { tx.stage id (.unanswered reason) with items := tx.items.eraseIdx index }
  | _ => tx

def withdrawQueuedInputs (tx : Tx) (reason : JsString) : Tx :=
  (List.range tx.items.length).reverse.foldl (withdrawAt reason) tx

/-- The committed operations. The entries of runs, and the runs themselves, come and go freely
between the others; a settlement is of a placed submission. -/
inductive Operation
  | admitDraft (draft : SubmissionDraft) (now : Nat) (modes : QueueModes)
  | boundary (at' : BoundaryKind) (now : Nat) (modes : QueueModes)
  | abort (id : Nat)
  | withdraw (reason : JsString)
  | answer (id : Nat) (entry : Nat)
  | endUnanswered (id : Nat) (reason : JsString)
  | append (draft : EntryDraft)
  | run (running : Bool)

/-- A placed submission, which a run settles. -/
def State.isPlaced (state : State) (id : Nat) : Bool :=
  state.submissions.any fun record => decide (record.id = id) && decide (record.status = .placed)

/-- The commit an operation makes; `none` when it is refused. -/
def staged (state : State) : Operation → Option Tx
  | .admitDraft draft now modes => match admitSubmission (.ofState state) draft now modes with
    | .ok (_, tx) => some tx
    | .error _ => none
  | .boundary at' now modes =>
    let tx := Tx.ofState state
    some (applyBoundary tx tx.latestHead modes at' now).tx
  | .abort id => some (abort (.ofState state) id)
  | .withdraw reason => some (withdrawQueuedInputs (.ofState state) reason)
  | .answer id entry =>
    if state.isPlaced id then some ((Tx.ofState state).stage id (.done entry)) else none
  | .endUnanswered id reason =>
    if state.isPlaced id then some ((Tx.ofState state).stage id (.unanswered reason)) else none
  | .append draft => some ((Tx.ofState state).appendEntry draft).2
  | .run running => some { Tx.ofState state with nextId := state.nextId + 1, running }

def step (state : State) (operation : Operation) : Option State :=
  (staged state operation).bind fun tx => match assemble tx with
    | .ok next => some next
    | .error _ => none

end Hummin.Inbox
