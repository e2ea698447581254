/-
The documents of one object while its attempts come and go: the transaction that
holds the line, reads through handles of different versions, and the hydrations of
new attempts, which do not take the line.
-/
import Hummin.DocumentSlot
import Hummin.Machine

namespace Hummin.Documents

/-- A draft begun on a value through a handle of a version. -/
structure Draft where
  handle : Version
  base : Value
deriving DecidableEq, Repr

structure Entry where
  name : Name
  key : Key
  draft : Option Draft
  retire : Bool
  found : Option Stored
deriving DecidableEq, Repr

/-- One document's part of a commit, with what it writes to the store. -/
structure Adoption where
  name : Name
  key : Key
  prepared : Option Prepared
  retires : Bool
  stored : Option StoredChange
  writes : List Write
deriving DecidableEq, Repr

/-- A use of a cold document that waits for its load. -/
structure Pending where
  name : Name
  key : Key
  handle : Version
deriving DecidableEq, Repr

/-- A transaction; `queued` once its commit waits for the store's step. -/
structure Transaction where
  entries : List Entry
  loading : List Pending
  queued : Option (List Adoption)
deriving DecidableEq, Repr

/-- The documents of an object.  `line` is the transaction that holds the line, `gets`
are the reads of cold documents underway.  What handles read and draft, with their
versions, and the changes committed to each document since its last retirement are kept
for the proofs only. -/
structure State where
  slots : Name → Option Slot
  store : Name → Key → Option StoredDocument
  line : Option Transaction
  gets : List Pending
  seen : List (Version × Value)
  committed : Name → Key → Option (List Nat)

def State.setSlot (state : State) (name : Name) (slot : Slot) : State :=
  { state with slots := Function.update state.slots name (some slot) }

def setAt {α : Type} (at_ : Name → Key → α) (name : Name) (key : Key) (value : α) :
    Name → Key → α :=
  Function.update at_ name (Function.update (at_ name) key value)

/-! ### Drafts and retirements -/

namespace Transaction

/-- The transaction's entry of a document, made by its first use. -/
def entry (tx : Transaction) (name : Name) (key : Key) : Entry :=
  (tx.entries.find? fun entry => entry.name == name && entry.key == key).getD
    ⟨name, key, none, false, none⟩

def setEntry (tx : Transaction) (entry : Entry) : Transaction :=
  { tx with
    entries := entry :: tx.entries.filter fun other =>
      !(other.name == entry.name && other.key == entry.key) }

end Transaction

/-- The document a draft begins on: the current one, unless it was retired before, or a
fresh `initial()`. -/
def Slot.start (slot : Slot) (key : Key) (retire : Bool) : Option Value :=
  match (if retire then none else slot.held key) with
  | some value => some value
  | none => slot.initial

/-- `#begin`: the entry's draft, begun by its first use. -/
def begin (state : State) (tx : Transaction) (slot : Slot) (entry : Entry)
    (handle : Version) : Option State :=
  match entry.draft with
  | some draft => some { state with
      line := some tx, seen := state.seen ++ [(handle, draft.base)] }
  | none =>
    let used := if entry.retire then slot else slot.access entry.key
    (used.start entry.key entry.retire).map fun base =>
      { state.setSlot entry.name used with
        line := some (tx.setEntry { entry with draft := some ⟨handle, base⟩ })
        seen := state.seen ++ [(handle, base)] }

/-- `tx.draft(handle, key)`: a cold document is loaded first. -/
def draft (state : State) (name : Name) (raw : Key) (handle : Version) : Option State := do
  let slot ← state.slots name
  let tx ← state.line
  guard (slot.definition.assertVersion handle && tx.queued.isNone)
  let key := slot.key raw
  let entry := tx.entry name key
  if entry.draft.isSome || entry.retire || !slot.cold key then
    begin state tx slot entry handle
  else
    pure { state with line := some { tx with loading := ⟨name, key, handle⟩ :: tx.loading } }

/-- The load of a draft's cold document is done; the draft begins on what it installed. -/
def draftLoaded (state : State) (load : Pending) : Option State := do
  let slot ← state.slots load.name
  let tx ← state.line
  guard (decide (load ∈ tx.loading) && tx.queued.isNone)
  let loaded ← slot.load load.key (state.store load.name load.key)
  begin (state.setSlot load.name loaded) { tx with loading := tx.loading.erase load } loaded
    (tx.entry load.name load.key) load.handle

/-- A retirement of a cold document finds what is stored of it; `none` when the code
cannot read it. -/
def find (slot : Slot) (entry : Entry) (document : Option StoredDocument) :
    Option (Option Stored) :=
  if entry.found.isNone && slot.cold entry.key then
    match document with
    | some found =>
      if checkReadable found.version found.fingerprint slot.definition.current then
        some (some found.stored)
      else none
    | none => some none
  else some entry.found

/-- `tx.retire(handle, key)`: a cold document is found, not loaded. -/
def retire (state : State) (name : Name) (raw : Key) (handle : Version) : Option State := do
  let slot ← state.slots name
  let tx ← state.line
  guard (slot.definition.assertVersion handle && tx.queued.isNone)
  let key := slot.key raw
  let entry := tx.entry name key
  let found ← find slot entry (state.store name key)
  pure { state with
    line := some (tx.setEntry { entry with draft := none, retire := true, found := found }) }

/-! ### Commits -/

/-- The entry's draft, prepared: `change` is what it changed, if anything. -/
def Entry.prepared (entry : Entry) (change : Option Nat) : Option Prepared := do
  let draft ← entry.draft
  let change ← change
  pure ⟨⟨draft.handle, change⟩, .drafted ⟨draft.handle, change⟩ draft.base⟩

/-- Whether the commit retires the entry's document: there is one. -/
def Entry.retires (entry : Entry) (slot : Slot) : Bool :=
  entry.retire && ((slot.held entry.key).isSome || entry.found.isSome)

/-- One entry's part of the commit. -/
def prepare (slot : Slot) (entry : Entry) (change : Option Nat) (checkpoint : Bool) :
    Option Adoption :=
  if (entry.prepared change).isNone && !entry.retires slot then none
  else if slot.persisted then
    let was := (slot.stored entry.key).or entry.found
    let staged := stage slot.definition.current was (entry.prepared change)
      (entry.retires slot) checkpoint
    some ⟨entry.name, entry.key, entry.prepared change, entry.retires slot, some staged.2, staged.1⟩
  else some ⟨entry.name, entry.key, entry.prepared change, entry.retires slot, none, []⟩

def prepareAll (state : State) (changes : Name → Key → Option Nat)
    (checkpoints : Name → Key → Bool) (entries : List Entry) : List Adoption :=
  entries.filterMap fun entry => do
    let slot ← state.slots entry.name
    prepare slot entry (changes entry.name entry.key) (checkpoints entry.name entry.key)

/-- One document's part of `#adopt`: it is retired, then adopted. -/
def Adoption.adopt (adoption : Adoption) (slot : Slot) : Slot :=
  let retired := if adoption.retires then slot.retire adoption.key else slot
  match adoption.prepared with
  | some prepared => retired.adopt adoption.key prepared adoption.stored
  | none => retired

/-- The changes committed to the document since its last retirement, with this one. -/
def Adoption.commits (adoption : Adoption) (before : Option (List Nat)) :
    Option (List Nat) :=
  let kept := if adoption.retires then none else before
  match adoption.prepared with
  | some prepared => some (kept.getD [] ++ [prepared.edit.change])
  | none => kept

def adoptOne (state : State) (adoption : Adoption) : Option State := do
  let slot ← state.slots adoption.name
  let document ← applyWrites (state.store adoption.name adoption.key) adoption.writes
  pure { state.setSlot adoption.name (adoption.adopt slot) with
    store := setAt state.store adoption.name adoption.key document
    committed := setAt state.committed adoption.name adoption.key
      (adoption.commits (state.committed adoption.name adoption.key)) }

/-- The whole commit; `none` when the store refuses one of its writes, and with it the
commit. -/
def adoptAll (state : State) : List Adoption → Option State
  | [] => some state
  | adoption :: rest => (adoptOne state adoption).bind fun next => adoptAll next rest

/-- `commit()`: documents in memory only are adopted at once, stored ones go through the
store's step. -/
def commit (state : State) (changes : Name → Key → Option Nat)
    (checkpoints : Name → Key → Bool) : Option State := do
  let tx ← state.line
  guard (tx.queued.isNone && tx.loading.isEmpty)
  let adoptions := prepareAll state changes checkpoints tx.entries
  if adoptions.any (·.stored.isSome) then
    pure { state with line := some { tx with queued := some adoptions } }
  else
    (adoptAll state adoptions).map fun next => { next with line := none }

/-- The store's step of the queued commit: its writes, then its adoption. -/
def storeStep (state : State) : Option State := do
  let tx ← state.line
  let adoptions ← tx.queued
  match adoptAll state adoptions with
  | some next => pure { next with line := none }
  | none => pure { state with line := none }

/-! ### Reads -/

/-- A keyed handle's `get`: a document in memory is read at once. -/
def get (state : State) (name : Name) (key : Key) (handle : Version) : Option State := do
  let slot ← state.slots name
  guard (slot.definition.assertVersion handle)
  match slot with
  | .singleton _ => none
  | .keyed keyed =>
    match (keyed.access key).residents key with
    | some resident => pure { state.setSlot name (.keyed (keyed.access key)) with
        seen := state.seen ++ [(handle, resident.value)] }
    | none =>
      if keyed.persisted then
        pure { state with gets := ⟨name, key, handle⟩ :: state.gets }
      else pure state

/-- The load a `get` waited for is done: it returns what memory has at the key. -/
def getLoaded (state : State) (read : Pending) : Option State := do
  guard (decide (read ∈ state.gets))
  let slot ← state.slots read.name
  let rest := { state with gets := state.gets.erase read }
  match slot.held read.key with
  | some value => pure { rest with seen := state.seen ++ [(read.handle, value)] }
  | none => pure rest

/-- A singleton handle's `value`. -/
def readValue (state : State) (name : Name) (handle : Version) : Option State := do
  let slot ← state.slots name
  guard (slot.definition.assertVersion handle)
  match slot with
  | .singleton singleton => do
      let value ← singleton.value
      pure { state with seen := state.seen ++ [(handle, value)] }
  | .keyed _ => none

/-! ### Steps -/

inductive Action where
  | declare (name : Name) (keyed persisted : Bool) (definition : Definition)
  | hydrate (name : Name) (definition : Definition) (migrates : Bool)
  | access (name : Name) (key : Key)
  | pin (name : Name) (key : Key)
  | unpin (name : Name) (key : Key)
  | read (name : Name) (handle : Version)
  | get (name : Name) (key : Key) (handle : Version)
  | getLoaded (read : Pending)
  | load (name : Name) (key : Key)
  | evict (name : Name) (key : Key)
  | begin
  | draft (name : Name) (key : Key) (handle : Version)
  | draftLoaded (load : Pending)
  | retire (name : Name) (key : Key) (handle : Version)
  | commit (changes : Name → Key → Option Nat) (checkpoints : Name → Key → Bool)
  | storeStep
  | cut

/-- One step.  A `migrate` that throws leaves a singleton and a resident as they are, so
only the pinned documents of a hydration are told of it; a transaction that throws, is
sealed or is refused is cut. -/
def step (state : State) : Action → Option State
  | .declare name keyed persisted definition => match state.slots name with
      | some _ => none
      | none => some { state.setSlot name (.new keyed persisted definition) with
          -- Documents in memory only start out absent, whatever the store has.
          committed := if persisted then state.committed
            else Function.update state.committed name fun _ => none }
  | .hydrate name definition migrates => do
      let slot ← state.slots name
      guard (slot.definition.check definition)
      pure (state.setSlot name (slot.hydrate definition migrates))
  | .access name key => do
      let slot ← state.slots name
      pure (state.setSlot name (slot.access key))
  | .pin name key => do
      match ← state.slots name with
      | .singleton _ => none
      | .keyed keyed => pure (state.setSlot name (.keyed (keyed.pin key)))
  | .unpin name key => do
      match ← state.slots name with
      | .singleton _ => none
      | .keyed keyed => pure (state.setSlot name (.keyed (keyed.unpin key)))
  | .read name handle => readValue state name handle
  | .get name key handle => get state name key handle
  | .getLoaded read => getLoaded state read
  | .load name key => do
      guard state.line.isNone
      let slot ← state.slots name
      guard (slot.persisted && slot.definition.hydrated)
      let loaded ← slot.load (slot.key key) (state.store name (slot.key key))
      pure (state.setSlot name loaded)
  | .evict name key => do
      guard state.line.isNone
      match ← state.slots name with
      | .singleton _ => none
      | .keyed keyed =>
        if keyed.persisted && (keyed.sources key).isNone then
          pure (state.setSlot name (.keyed (keyed.remove key)))
        else none
  | .begin => match state.line with
      | some _ => none
      | none => some { state with line := some ⟨[], [], none⟩ }
  | .draft name key handle => draft state name key handle
  | .draftLoaded load => draftLoaded state load
  | .retire name key handle => retire state name key handle
  | .commit changes checkpoints => commit state changes checkpoints
  | .storeStep => storeStep state
  | .cut => match state.line with
      | some _ => some { state with line := none }
      | none => none

end Hummin.Documents
