/-
Document slots: one per declared document name of an object, across its attempts.
The slots never look into a document's value, so a value is kept as its history:
the definition that made it and the drafts that changed it since.
-/
import Hummin.JsString

namespace Hummin.Documents

abbrev Version := Nat

/-- A declared document name. -/
abbrev Name := JsString

/-- A document's key; a singleton's is empty. -/
abbrev Key := JsString

/-- What one draft changed, begun through a handle of a version. -/
structure Edit where
  handle : Version
  change : Nat
deriving DecidableEq, Repr

/-- A value as its history. -/
inductive Value where
  | initial (version : Version)
  | migrated (version source : Version) (value : Value)
  | drafted (edit : Edit) (value : Value)
deriving DecidableEq, Repr

/-- The value is of a version: its definition there made it, or drafts of handles of
that version changed one that it made. -/
def Value.Produced (version : Version) : Value → Prop
  | .initial made => made = version
  | .migrated made source value => made = version ∧ value.Produced source
  | .drafted edit value => edit.handle = version ∧ value.Produced version

instance Value.decideProduced (version : Version) (value : Value) :
    Decidable (value.Produced version) :=
  match value with
  | .initial made => inferInstanceAs (Decidable (made = version))
  | .migrated made source value =>
    have := decideProduced source value
    inferInstanceAs (Decidable (made = version ∧ value.Produced source))
  | .drafted edit value =>
    have := decideProduced version value
    inferInstanceAs (Decidable (edit.handle = version ∧ value.Produced version))

/-- The changes a value went through, oldest first. -/
def Value.changes : Value → List Nat
  | .initial _ => []
  | .migrated _ _ value => value.changes
  | .drafted edit value => value.changes ++ [edit.change]

structure Definition where
  version : Version
  fingerprint : Nat
deriving DecidableEq, Repr

/-- The definition's `migrate` of a value from an older version. -/
def Definition.migrate (definition : Definition) (value : Value) (source : Version) : Value :=
  .migrated definition.version source value

/-! ### What is stored -/

/-- What is stored of a loaded document. -/
structure Stored where
  revision : Nat
  version : Version
  deltasSinceBase : Nat
deriving DecidableEq, Repr

/-- A stored document: its record, and the value its base and deltas make. -/
structure StoredDocument where
  revision : Nat
  version : Version
  fingerprint : Nat
  value : Value
  deltasSinceBase : Nat
deriving DecidableEq, Repr

def StoredDocument.stored (document : StoredDocument) : Stored :=
  ⟨document.revision, document.version, document.deltasSinceBase⟩

/-- Whether the definition reads a document of the version and fingerprint: not a newer
one, nor one of its own version with another schema. -/
def checkReadable (version : Version) (fingerprint : Nat) (definition : Definition) : Bool :=
  decide (version ≤ definition.version) &&
    (version != definition.version || fingerprint == definition.fingerprint)

/-- The document as the definition reads it, `none` when that throws. -/
def decode (document : StoredDocument) (definition : Definition) : Option (Value × Stored) :=
  if checkReadable document.version document.fingerprint definition then
    some (if document.version = definition.version then document.value
      else definition.migrate document.value document.version, document.stored)
  else none

/-- A prepared change: the draft's edits and the value they lead to. -/
structure Prepared where
  edit : Edit
  value : Value
deriving DecidableEq, Repr

inductive Content where
  | base (definition : Definition) (value : Value)
  | delta (version : Version) (ops : Edit)
deriving DecidableEq, Repr

inductive Write where
  | retire (revision : Nat)
  | create (definition : Definition) (value : Value)
  | change (revision : Nat) (content : Content)
deriving DecidableEq, Repr

/-- The live record of an address after a write; `none` when the step refuses it, a
record not live at the revision, or a delta on another version's base. -/
def Write.apply (document : Option StoredDocument) : Write → Option (Option StoredDocument)
  | .retire revision => match document with
      | some found => if found.revision = revision then some none else none
      | none => none
  | .create definition value => match document with
      | some _ => none
      | none => some (some ⟨1, definition.version, definition.fingerprint, value, 0⟩)
  | .change revision (.base definition value) => match document with
      | some found =>
        if found.revision = revision then
          some (some ⟨revision + 1, definition.version, definition.fingerprint, value, 0⟩)
        else none
      | none => none
  | .change revision (.delta version ops) => match document with
      | some found =>
        if found.revision = revision ∧ found.version = version then
          some (some { found with
            revision := revision + 1, value := .drafted ops found.value
            deltasSinceBase := found.deltasSinceBase + 1 })
        else none
      | none => none

def applyWrites (document : Option StoredDocument) : List Write → Option (Option StoredDocument)
  | [] => some document
  | write :: rest => (write.apply document).bind fun next => applyWrites next rest

/-- What one commit stores of a document. -/
inductive StoredChange where
  | retire
  | create (version : Version)
  | change (stored : Stored)
deriving DecidableEq, Repr

def storedAfter : StoredChange → Option Stored
  | .retire => none
  | .create version => some ⟨1, version, 0⟩
  | .change stored => some stored

/-- `Persistence.stage`: the writes of one commit's change of a document.  `checkpoint`
is what `checkpointWhen` answers. -/
def stage (definition : Definition) (stored : Option Stored) (prepared : Option Prepared)
    (retires checkpoint : Bool) : List Write × StoredChange :=
  let retired := match stored with
    | some was => if retires then [Write.retire was.revision] else []
    | none => []
  match prepared with
  | none => (retired, .retire)
  | some change =>
    match (if retires then none else stored) with
    | none => (retired ++ [.create definition change.value], .create definition.version)
    | some was =>
      if was.version ≠ definition.version ∨ checkpoint = true then
        (retired ++ [.change was.revision (.base definition change.value)],
          .change ⟨was.revision + 1, definition.version, 0⟩)
      else
        (retired ++ [.change was.revision (.delta definition.version change.edit)],
          .change ⟨was.revision + 1, definition.version, was.deltasSinceBase + 1⟩)

/-! ### The definition of a slot's values -/

structure SlotDefinition where
  current : Definition
  hydrated : Bool
deriving DecidableEq, Repr

namespace SlotDefinition

/-- Whether a new attempt's declaration is taken: not older than the values, nor of
their version with another schema. -/
def check (slot : SlotDefinition) (definition : Definition) : Bool :=
  decide (slot.current.version ≤ definition.version) &&
    (definition.version != slot.current.version ||
      definition.fingerprint == slot.current.fingerprint)

def hydrate (_ : SlotDefinition) (definition : Definition) : SlotDefinition :=
  ⟨definition, true⟩

/-- Whether a handle of the version may use the values. -/
def assertVersion (slot : SlotDefinition) (version : Version) : Bool :=
  version == slot.current.version

end SlotDefinition

/-! ### Singletons -/

/-- A singleton's slot: one value while written, `initial()` while absent. -/
structure SingletonSlot where
  definition : SlotDefinition
  persisted : Bool
  initial : Option Value
  tracker : Option Value
  stored : Option Stored
  loaded : Bool
deriving DecidableEq, Repr

namespace SingletonSlot

def new (definition : Definition) (persisted : Bool) : SingletonSlot :=
  ⟨⟨definition, false⟩, persisted, none, none, none, !persisted⟩

/-- The slot's value, `none` where reading it throws `not_ready`. -/
def value (slot : SingletonSlot) : Option Value :=
  match slot.initial with
  | some initial => if slot.loaded then some (slot.tracker.getD initial) else none
  | none => none

/-- `hydrate`: a newer version migrates the value in memory and takes `initial()` again. -/
def hydrate (slot : SingletonSlot) (definition : Definition) : SingletonSlot :=
  if slot.definition.hydrated = true ∧
      slot.definition.current.version = definition.version then
    { slot with definition := slot.definition.hydrate definition }
  else
    { slot with
      tracker :=
        if slot.definition.hydrated then
          slot.tracker.map (definition.migrate · slot.definition.current.version)
        else slot.tracker
      initial := some (.initial definition.version)
      definition := slot.definition.hydrate definition }

/-- `load` of what the store has; `none` when the code cannot read it. -/
def load (slot : SingletonSlot) (document : Option StoredDocument) : Option SingletonSlot :=
  if slot.loaded then some slot
  else match document with
    | none => some { slot with loaded := true }
    | some found => (decode found slot.definition.current).map fun (value, stored) =>
      { slot with tracker := some value, stored := some stored, loaded := true }

def adopt (slot : SingletonSlot) (prepared : Prepared) (stored : Option StoredChange) :
    SingletonSlot :=
  { slot with tracker := some prepared.value, stored := stored.bind storedAfter }

def retire (slot : SingletonSlot) : SingletonSlot :=
  { slot with tracker := none, stored := none }

end SingletonSlot

/-! ### Keyed documents -/

/-- A keyed document in memory, and the version its value is at. -/
structure Resident where
  value : Value
  stored : Option Stored
  version : Version
deriving DecidableEq, Repr

/-- A keyed slot: its documents in memory, and for each pinned key the `initial()` its
source reads while the document is absent. -/
structure KeyedSlot where
  definition : SlotDefinition
  persisted : Bool
  residents : Key → Option Resident
  sources : Key → Option Value

namespace KeyedSlot

def new (definition : Definition) (persisted : Bool) : KeyedSlot :=
  ⟨⟨definition, false⟩, persisted, fun _ => none, fun _ => none⟩

/-- A resident brought to the slot's version. -/
def migrated (slot : KeyedSlot) (resident : Resident) : Resident :=
  if resident.version = slot.definition.current.version then resident
  else { resident with
    value := slot.definition.current.migrate resident.value resident.version
    version := slot.definition.current.version }

/-- `#resident`: an access migrates the document at the key when it is older. -/
def access (slot : KeyedSlot) (key : Key) : KeyedSlot :=
  { slot with
    residents := Function.update slot.residents key ((slot.residents key).map slot.migrated) }

/-- `hydrate`: a newer version migrates the pinned documents now and the others on their
next access.  When the migration of a pinned one throws, none of them is migrated and no
source takes `initial()` again. -/
def hydrate (slot : KeyedSlot) (definition : Definition) (migrates : Bool) : KeyedSlot :=
  let next := { slot with definition := slot.definition.hydrate definition }
  if slot.definition.hydrated = false ∨
      slot.definition.current.version = definition.version then next
  else if migrates then
    { next with
      residents := fun key =>
        if (slot.sources key).isSome then (slot.residents key).map next.migrated
        else slot.residents key
      sources := fun key => (slot.sources key).map fun _ => .initial definition.version }
  else next

/-- `load` of what the store has at the key, installed while the key is absent from
memory; `none` when the code cannot read it. -/
def load (slot : KeyedSlot) (key : Key) (document : Option StoredDocument) :
    Option KeyedSlot :=
  match slot.residents key, document with
  | some _, _ => some slot
  | none, none => some slot
  | none, some found => (decode found slot.definition.current).map fun (value, stored) =>
    { slot with
      residents := Function.update slot.residents key
        (some ⟨value, some stored, slot.definition.current.version⟩) }

def adopt (slot : KeyedSlot) (key : Key) (prepared : Prepared)
    (stored : Option StoredChange) : KeyedSlot :=
  { slot with
    residents := Function.update slot.residents key
      (some ⟨prepared.value, stored.bind storedAfter, slot.definition.current.version⟩) }

/-- `retire` and `evict`: the document leaves memory. -/
def remove (slot : KeyedSlot) (key : Key) : KeyedSlot :=
  { slot with residents := Function.update slot.residents key none }

/-- The first pin of a key makes its source. -/
def pin (slot : KeyedSlot) (key : Key) : KeyedSlot :=
  match slot.sources key with
  | some _ => slot
  | none => { slot with
      sources := Function.update slot.sources key
        (some (.initial slot.definition.current.version)) }

def unpin (slot : KeyedSlot) (key : Key) : KeyedSlot :=
  { slot with sources := Function.update slot.sources key none }

end KeyedSlot

/-! ### What a transaction needs of a slot -/

inductive Slot where
  | singleton (slot : SingletonSlot)
  | keyed (slot : KeyedSlot)

namespace Slot

def new (keyed persisted : Bool) (definition : Definition) : Slot :=
  if keyed then .keyed (.new definition persisted) else .singleton (.new definition persisted)

def definition : Slot → SlotDefinition
  | .singleton slot => slot.definition
  | .keyed slot => slot.definition

def persisted : Slot → Bool
  | .singleton slot => slot.persisted
  | .keyed slot => slot.persisted

/-- The key a document is kept under: a singleton has one document. -/
def key (key : Key) : Slot → Key
  | .singleton _ => []
  | .keyed _ => key

/-- The value in memory, as it is. -/
def held (key : Key) : Slot → Option Value
  | .singleton slot => slot.tracker
  | .keyed slot => (slot.residents key).map (·.value)

/-- The version a value in memory is held under. -/
def heldVersion (key : Key) : Slot → Version
  | .singleton slot => slot.definition.current.version
  | .keyed slot => ((slot.residents key).map (·.version)).getD slot.definition.current.version

/-- The use of a document: a keyed one is migrated first. -/
def access (key : Key) : Slot → Slot
  | .singleton slot => .singleton slot
  | .keyed slot => .keyed (slot.access key)

/-- The value a draft of an absent document starts from. -/
def initial : Slot → Option Value
  | .singleton slot => slot.initial
  | .keyed slot => some (.initial slot.definition.current.version)

def cold (key : Key) : Slot → Bool
  | .singleton _ => false
  | .keyed slot => slot.persisted && (slot.residents key).isNone

def stored (key : Key) : Slot → Option Stored
  | .singleton slot => slot.stored
  | .keyed slot => (slot.residents key).bind (·.stored)

def load (key : Key) (document : Option StoredDocument) : Slot → Option Slot
  | .singleton slot => (slot.load document).map .singleton
  | .keyed slot => (slot.load key document).map .keyed

def hydrate (definition : Definition) (migrates : Bool) : Slot → Slot
  | .singleton slot => .singleton (slot.hydrate definition)
  | .keyed slot => .keyed (slot.hydrate definition migrates)

def adopt (key : Key) (prepared : Prepared) (stored : Option StoredChange) : Slot → Slot
  | .singleton slot => .singleton (slot.adopt prepared stored)
  | .keyed slot => .keyed (slot.adopt key prepared stored)

def retire (key : Key) : Slot → Slot
  | .singleton slot => .singleton slot.retire
  | .keyed slot => .keyed (slot.remove key)

end Slot

end Hummin.Documents
