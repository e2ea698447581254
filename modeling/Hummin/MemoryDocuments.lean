/-
Documents of `MemoryStorage`.  A batch of writes is checked against the state, gathered into
one action per document, and applied; the state keeps each incarnation's record and
revisions, and per address its incarnations and the current one.
-/
import Mathlib.Logic.Function.Basic
import Hummin.DeltaImmutable
import Hummin.JsMap

namespace Hummin.MemoryStorage

open Delta (Op Failure applyImmutableBatches)

inductive TableName
  | conversation
  | entry
  | task
  | submission
  | document
deriving DecidableEq, Repr

inductive DocumentScope
  | session
  | conversation (conversationId : Nat)
  | task (taskId : Nat)
deriving DecidableEq, Repr

inductive History
  | latest
  | rewindable
deriving DecidableEq, Repr

inductive Fork
  | asOf
  | current
  | initial
deriving DecidableEq, Repr

/-- Exact logical identity of a singleton or one keyed family member. -/
structure DocumentAddress where
  kind : JsString
  scope : DocumentScope
  key : Option JsString
deriving DecidableEq, Repr

structure DocumentCreate where
  id : Nat
  kind : JsString
  key : Option JsString
  scope : DocumentScope
  history : Option History
  fork : Option Fork
deriving DecidableEq, Repr

structure DocumentRecord extends DocumentCreate where
  createdAt : Nat
  retiredAt : Option Nat
deriving DecidableEq, Repr

/-- Current state or one historical commit sequence. -/
inductive DocumentPoint
  | current
  | seq (seq : Nat)
deriving DecidableEq, Repr

inductive DocumentContent
  | base (version : Nat) (value : JsonValue)
  | delta (version : Nat) (ops : List (Op Unit))

structure DocumentRevision where
  content : DocumentContent
  seq : Nat

structure StoredDocumentState where
  record : DocumentRecord
  revisions : List DocumentRevision

structure StoredDocument where
  record : DocumentRecord
  version : Nat
  value : JsonValue
  deltasSinceBase : Nat

structure DocumentAddressIndex where
  ids : List Nat
  currentId : Option Nat

/-- Of the other record writes only the table and the id matter to documents. -/
inductive StorageWrite
  | conversation (id : Nat)
  | entry (id : Nat)
  | task (id : Nat)
  | submission (id : Nat)
  | create (record : DocumentCreate) (content : DocumentContent)
  | copy (record : DocumentCreate) (sourceId : Nat) (sourceAt : DocumentPoint)
  | change (id : Nat) (content : DocumentContent)
  | retire (id : Nat)

structure DocumentAction where
  create : Option DocumentCreate
  content : Option DocumentContent
  retire : Bool

structure State where
  recordTypes : Nat → Option TableName
  documents : Nat → Option StoredDocumentState
  documentAddresses : DocumentAddress → Option DocumentAddressIndex
  nextSeq : Nat

/-- Why a document cannot be read. -/
inductive ReadError
  /-- `Document ${id} does not retain historical content` -/
  | notRetained (id : Nat)
  /-- `Document ${id} is missing a required base` -/
  | missingBase (id : Nat)
  /-- `Document ${id} crosses a stored version boundary without a base` -/
  | versionBoundary (id : Nat)
  /-- The stored operations do not apply. -/
  | delta (failure : Failure)

/-- Why a batch is refused. -/
inductive Refusal
  /-- `ID ${id} already belongs to ${table}` -/
  | belongs (id : Nat) (table : TableName)
  /-- `ID ${id} is written more than once` -/
  | writtenTwice (id : Nat)
  /-- `ID ${id} is written as two record types` -/
  | twoTypes (id : Nat)
  /-- `Document ${id} has more than one content command` -/
  | twoContents (id : Nat)
  /-- `Document ${id} is retired more than once` -/
  | retiredTwice (id : Nat)
  /-- `Unknown document: ${id}` -/
  | unknown (id : Nat)
  /-- `Document ${id} already exists` -/
  | exists_ (id : Nat)
  /-- `Document ${id} is retired` -/
  | retired (id : Nat)
  /-- `Document ${id} delta has no base` -/
  | noBase (id : Nat)
  /-- `Document ${id} version transition requires a base` -/
  | versionTransition (id : Nat)
  /-- `Document address already has a current incarnation` -/
  | addressTaken
  /-- `Document copy ${id} was rejected` -/
  | copyRejected (id : Nat)

def DocumentContent.version : DocumentContent → Nat
  | .base version _ => version
  | .delta version _ => version

def DocumentContent.isBase : DocumentContent → Bool
  | .base _ _ => true
  | .delta _ _ => false

def DocumentCreate.address (record : DocumentCreate) : DocumentAddress :=
  ⟨record.kind, record.scope, record.key⟩

def isAliveAt (record : DocumentRecord) : DocumentPoint → Bool
  | .current => record.retiredAt.isNone
  | .seq seq => decide (record.createdAt ≤ seq) && record.retiredAt.all fun retired => decide (seq < retired)

def DocumentScope.isConversation : DocumentScope → Bool
  | .conversation _ => true
  | _ => false

def isCurrentOnly (record : DocumentCreate) : Bool :=
  !record.scope.isConversation || record.history == some .latest

def start : State where
  recordTypes := fun _ => none
  documents := fun _ => none
  documentAddresses := fun _ => none
  nextSeq := 1

/-! ### Reads -/

/-- A delta that continues the base's version. -/
def continues (version : Nat) (revision : DocumentRevision) : Option (List (Op Unit)) :=
  match revision.content with
  | .base _ _ => none
  | .delta other ops => if other = version then some ops else none

/-- Apply the deltas after the base, each read when the ones before it are applied. -/
def replay (id version : Nat) (value : JsonValue) (revisions : List DocumentRevision) :
    Except ReadError JsonValue :=
  let deltas := revisions.map (continues version)
  match applyImmutableBatches value ((deltas.takeWhile Option.isSome).filterMap fun ops => ops) with
  | .error failure => .error (.delta failure)
  | .ok value => if deltas.all Option.isSome then .ok value else .error (.versionBoundary id)

/-- The last base of the revisions, and the ones after it. -/
def lastBase : List DocumentRevision → Option (Nat × JsonValue × List DocumentRevision)
  | [] => none
  | revision :: rest =>
    match lastBase rest with
    | some found => some found
    | none => match revision.content with
      | .base version value => some (version, value, rest)
      | .delta _ _ => none

def materialize (id : Nat) (record : DocumentRecord) (revisions : List DocumentRevision) :
    Except ReadError StoredDocument :=
  match lastBase revisions with
  | none => .error (.missingBase id)
  | some (version, value, deltas) =>
    match replay id version value deltas with
    | .error failure => .error failure
    | .ok value => .ok ⟨record, version, value, deltas.length⟩

/-- The revisions a read at a point sees. -/
def revisionsAt (revisions : List DocumentRevision) : DocumentPoint → List DocumentRevision
  | .current => revisions
  | .seq seq => revisions.filter fun revision => decide (revision.seq ≤ seq)

def State.materializeDocument (state : State) (id : Nat) (point : DocumentPoint) :
    Except ReadError (Option StoredDocument) :=
  match state.documents id with
  | none => .ok none
  | some stored =>
    if point ≠ .current ∧ isCurrentOnly stored.record.toDocumentCreate then
      .error (.notRetained id)
    else if isAliveAt stored.record point then
      (materialize id stored.record (revisionsAt stored.revisions point)).map some
    else .ok none

def State.document (state : State) (id : Nat) (point : DocumentPoint) :
    Except ReadError (Option StoredDocument) :=
  state.materializeDocument id point

/-- The table and id a write claims. -/
def StorageWrite.claims : StorageWrite → Option (TableName × Nat)
  | .conversation id => some (.conversation, id)
  | .entry id => some (.entry, id)
  | .task id => some (.task, id)
  | .submission id => some (.submission, id)
  | .create record _ => some (.document, record.id)
  | .copy record _ _ => some (.document, record.id)
  | .change _ _ => none
  | .retire _ => none

/-- Conversations, entries and documents are written once. -/
def TableName.once : TableName → Bool
  | .task => false
  | .submission => false
  | _ => true

def checkGlobalId (state : State) (claimed : List (Nat × TableName)) (write : StorageWrite) :
    Except Refusal (List (Nat × TableName)) :=
  match write.claims with
  | none => .ok claimed
  | some (table, id) =>
    match state.recordTypes id, PropertyList.get id claimed with
    | some existing, earlier =>
      if table.once ∨ existing ≠ table then .error (.belongs id existing)
      else match earlier with
        | none => .ok (JsMap.set id table claimed)
        | some earlier =>
          if earlier ≠ table then .error (.twoTypes id) else .ok (JsMap.set id table claimed)
    | none, some earlier =>
      if table.once then .error (.writtenTwice id)
      else if earlier ≠ table then .error (.twoTypes id)
      else .ok (JsMap.set id table claimed)
    | none, none => .ok (JsMap.set id table claimed)

def checkGlobalIds (state : State) (writes : List StorageWrite) :
    Except Refusal (List (Nat × TableName)) :=
  writes.foldlM (checkGlobalId state) []

/-- The documents a batch changes. -/
def StorageWrite.changes : StorageWrite → Option Nat
  | .create record _ => some record.id
  | .copy record _ _ => some record.id
  | .change id _ => some id
  | .retire id => some id
  | _ => none

/-- A copy becomes a creation with the source's value. -/
def resolveDocumentCopy (state : State) (changed : List Nat) : StorageWrite → Except Refusal StorageWrite
  | .copy record sourceId sourceAt =>
    if sourceId ∈ changed then .error (.copyRejected record.id)
    else match state.materializeDocument sourceId sourceAt with
      | .ok (some stored) =>
        if stored.record.scope.isConversation ∧ record.scope.isConversation ∧
            stored.record.kind = record.kind ∧ stored.record.key = record.key ∧
            stored.record.history = record.history ∧ stored.record.fork = record.fork then
          .ok (.create record (.base stored.version stored.value))
        else .error (.copyRejected record.id)
      | _ => .error (.copyRejected record.id)
  | write => .ok write

def resolveDocumentCopies (state : State) (writes : List StorageWrite) :
    Except Refusal (List StorageWrite) :=
  writes.mapM (resolveDocumentCopy state (writes.filterMap StorageWrite.changes))

/-- Gather a write into its document's action. -/
def prepareDocumentAction (actions : List (Nat × DocumentAction)) :
    StorageWrite → Except Refusal (List (Nat × DocumentAction))
  | .create record content =>
    let action := (PropertyList.get record.id actions).getD ⟨none, none, false⟩
    if action.create.isSome ∨ action.content.isSome then .error (.twoContents record.id)
    else .ok (JsMap.set record.id
      { action with create := some record, content := some content } actions)
  | .change id content =>
    let action := (PropertyList.get id actions).getD ⟨none, none, false⟩
    if action.content.isSome then .error (.twoContents id)
    else .ok (JsMap.set id { action with content := some content } actions)
  | .retire id =>
    let action := (PropertyList.get id actions).getD ⟨none, none, false⟩
    if action.retire then .error (.retiredTwice id)
    else .ok (JsMap.set id { action with retire := true } actions)
  | _ => .ok actions

def prepareDocumentActions (writes : List StorageWrite) :
    Except Refusal (List (Nat × DocumentAction)) :=
  writes.foldlM prepareDocumentAction []

/-- The address of the incarnation an action is about. -/
def actionAddress (state : State) (id : Nat) (action : DocumentAction) : Option DocumentAddress :=
  match action.create with
  | some record => some record.address
  | none => (state.documents id).map fun stored => stored.record.address

/-- The checks of one action against the stored incarnation. -/
def checkDocumentAction (state : State) (id : Nat) (action : DocumentAction) :
    Except Refusal Unit :=
  let existing := state.documents id
  if action.create.isNone ∧ existing.isNone then .error (.unknown id)
  else if action.create.isSome ∧ existing.isSome then .error (.exists_ id)
  else if (existing.bind fun stored => stored.record.retiredAt).isSome then .error (.retired id)
  else match action.content with
    | some (.delta version _) =>
      match existing.bind fun stored => stored.revisions.getLast? with
      | none => .error (.noBase id)
      | some previous =>
        if previous.content.version = version then .ok () else .error (.versionTransition id)
    | _ => .ok ()

def State.currentId (state : State) (address : DocumentAddress) : Option Nat :=
  (state.documentAddresses address).bind fun index => index.currentId

/-- What an action adds to the live incarnations at its address. -/
def liveChange (state : State) (address : DocumentAddress) (id : Nat) (action : DocumentAction) :
    Int :=
  (if action.retire ∧ state.currentId address = some id then -1 else 0) +
    if action.create.isSome ∧ ¬ action.retire then 1 else 0

def countLive (state : State) (counts : List (DocumentAddress × Int)) (id : Nat)
    (action : DocumentAction) : List (DocumentAddress × Int) :=
  match actionAddress state id action with
  | none => counts
  | some address =>
    let live := (PropertyList.get address counts).getD
      (if (state.currentId address).isSome then 1 else 0)
    JsMap.set address (live + liveChange state address id action) counts

/-- Check each action, counting the incarnations it leaves live at its address. -/
def checkDocumentActions (state : State) (actions : List (Nat × DocumentAction)) :
    Except Refusal Unit := do
  let counts ← actions.foldlM (fun counts (id, action) => do
    checkDocumentAction state id action
    pure (countLive state counts id action)) []
  if counts.any fun (_, live) => decide (1 < live) then .error .addressTaken else .ok ()

/-! ### Commits -/

def insertSorted (id : Nat) (ids : List Nat) : List Nat :=
  ids.takeWhile (fun other => decide (other < id)) ++ id ::
    ids.dropWhile fun other => decide (other < id)

/-- The revisions after a content command. -/
def pushRevision (record : DocumentRecord) (revisions : List DocumentRevision)
    (revision : DocumentRevision) : List DocumentRevision :=
  if revision.content.isBase ∧ isCurrentOnly record.toDocumentCreate then [revision]
  else revisions ++ [revision]

/-- The incarnation an action leaves. -/
def applyToDocument (seq : Nat) (stored : Option StoredDocumentState) (action : DocumentAction) :
    Option StoredDocumentState :=
  match action.create, action.content with
  | some create, some content =>
    let record : DocumentRecord := { create with
      createdAt := seq
      retiredAt := if action.retire then some seq else none }
    some { record := record
           revisions := if action.retire ∧ isCurrentOnly create then [] else [⟨content, seq⟩] }
  | _, content =>
    match stored with
    | none => none
    | some stored =>
      let revisions := match content with
        | none => stored.revisions
        | some content => pushRevision stored.record stored.revisions ⟨content, seq⟩
      if action.retire then
        some { record := { stored.record with retiredAt := some seq }
               revisions := if isCurrentOnly stored.record.toDocumentCreate then []
                 else revisions }
      else some { stored with revisions := revisions }

/-- The index of the action's address after it. -/
def applyToAddress (id : Nat) (action : DocumentAction) (index : Option DocumentAddressIndex) :
    Option DocumentAddressIndex :=
  if action.create.isSome ∨ action.retire then
    let index := index.getD ⟨[], none⟩
    let ids := if action.create.isSome then insertSorted id index.ids else index.ids
    let currentId := if action.retire ∧ index.currentId = some id then none else index.currentId
    some ⟨ids, if action.create.isSome ∧ ¬ action.retire then some id else currentId⟩
  else index

def applyDocumentAction (seq : Nat) (state : State) (id : Nat) (action : DocumentAction) : State :=
  { state with
    recordTypes := if action.create.isSome
      then Function.update state.recordTypes id (some .document) else state.recordTypes
    documents := Function.update state.documents id
      (applyToDocument seq (state.documents id) action)
    documentAddresses := match actionAddress state id action with
      | none => state.documentAddresses
      | some address => Function.update state.documentAddresses address
          (applyToAddress id action (state.documentAddresses address)) }

def applyDocumentActions (seq : Nat) (state : State) (actions : List (Nat × DocumentAction)) :
    State :=
  actions.foldl (fun state (id, action) => applyDocumentAction seq state id action) state

/-- The other records of a batch. -/
def applyRecord (state : State) (write : StorageWrite) : State :=
  match write.claims with
  | some (.document, _) => state
  | some (table, id) =>
    { state with recordTypes := Function.update state.recordTypes id (some table) }
  | none => state

def applyPreparedCommit (state : State) (writes : List StorageWrite)
    (actions : List (Nat × DocumentAction)) : State :=
  let recorded := writes.foldl applyRecord state
  { applyDocumentActions state.nextSeq recorded actions with nextSeq := state.nextSeq + 1 }

/-- Validate one batch without changing the state; its writes and document actions. -/
def prepareCommit (state : State) (writes : List StorageWrite) :
    Except Refusal (List StorageWrite × List (Nat × DocumentAction)) := do
  let writes ← resolveDocumentCopies state writes
  let _ ← checkGlobalIds state writes
  let actions ← prepareDocumentActions writes
  checkDocumentActions state actions
  pure (writes, actions)

/-- One batch: the state after it, and its seq or why it was refused. -/
def commitBatch (state : State) (writes : List StorageWrite) : State × Except Refusal Nat :=
  match prepareCommit state writes with
  | .error refusal => (state, .error refusal)
  | .ok (writes, actions) => (applyPreparedCommit state writes actions, .ok state.nextSeq)

/-- `commit`: the batches in order, up to the first one refused. -/
def commit (state : State) : List (List StorageWrite) → State × List Nat × Option Refusal
  | [] => (state, [], none)
  | writes :: rest =>
    match commitBatch state writes with
    | (state, .error refusal) => (state, [], some refusal)
    | (state, .ok seq) =>
      let (state, seqs, refused) := commit state rest
      (state, seq :: seqs, refused)

/-- The state after batches, committed or refused. -/
def afterBatches (state : State) (batches : List (List StorageWrite)) : State :=
  batches.foldl (fun state writes => (commitBatch state writes).1) state

end Hummin.MemoryStorage
