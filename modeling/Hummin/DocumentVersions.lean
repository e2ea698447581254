/-
Documents and the versions of their definitions: what an object's slots hold and
store under a version was made at that version, and every committed change stays in
the history of its document.
-/
import Hummin.DocumentTransaction

namespace Hummin.Documents

open Option Function

/-! ### A slot -/

/-- The version of the definition a slot's values are of. -/
def Slot.version (slot : Slot) : Version := slot.definition.current.version

/-- A slot is sound over the changes committed to its documents and what is stored of
them. -/
structure SlotSound (committed : Key → Option (List Nat))
    (documents : Key → Option StoredDocument) (slot : Slot) : Prop where
  held : ∀ key value, slot.held key = some value → value.Produced (slot.heldVersion key)
  kept : ∀ key value, slot.held key = some value →
    committed (slot.key key) = some value.changes
  initial : ∀ value, slot.initial = some value → value = .initial slot.version
  source : ∀ keyed, slot = .keyed keyed → ∀ key value, keyed.sources key = some value →
    value = .initial slot.version
  hydrated : ∀ singleton, slot = .singleton singleton →
    singleton.definition.hydrated = singleton.initial.isSome ∧
      (singleton.definition.hydrated = false → singleton.tracker = none)
  stored : slot.persisted = true → ∀ key, (slot.stored key).isSome = (slot.held key).isSome
  absent : slot.persisted = false → ∀ key, slot.held key = none →
    committed (slot.key key) = none
  documents : slot.persisted = true → ∀ key,
    committed key = (documents key).map fun document => document.value.changes

variable {committed : Key → Option (List Nat)} {documents : Key → Option StoredDocument}
variable {slot next : Slot} {singleton : SingletonSlot} {keyed : KeyedSlot}

/-- What any use of the documents leaves of a slot: its definition, and that a document
at the slot's version stays at it. -/
structure Slot.Stays (slot next : Slot) (key : Key) : Prop where
  address : ∀ raw, next.key raw = slot.key raw
  persisted : next.persisted = slot.persisted
  current : next.definition.current = slot.definition.current
  initial : slot.initial.isSome = true → next.initial.isSome = true
  heldVersion : slot.heldVersion key = slot.version →
    next.heldVersion key = slot.heldVersion key

/-- What a use of other documents leaves of a slot: also the document at the key, once it
is at the slot's version. -/
structure Slot.Keeps (slot next : Slot) (key : Key) : Prop extends slot.Stays next key where
  held : slot.heldVersion key = slot.version → next.held key = slot.held key
  stored : slot.heldVersion key = slot.version → next.stored key = slot.stored key

variable {key : Key}

theorem Slot.Stays.version (hstays : slot.Stays next key) : next.version = slot.version := by
  rw [Slot.version, hstays.current, Slot.version]

theorem Slot.Keeps.refl (slot : Slot) (key : Key) : slot.Keeps slot key :=
  ⟨⟨fun _ => rfl, rfl, rfl, id, fun _ => rfl⟩, fun _ => rfl, fun _ => rfl⟩

/-! ### Uses of a slot -/

theorem SlotSound.new (keyed persisted : Bool) (definition : Definition)
    (hdocuments : persisted = true → ∀ key,
      committed key = (documents key).map fun document => document.value.changes)
    (habsent : persisted = false → ∀ key, committed key = none) :
    SlotSound committed documents (.new keyed persisted definition) := by
  cases keyed with
  | false =>
    refine ⟨nofun, nofun, nofun, nofun, ?_, fun _ _ => rfl,
      fun hpersisted _ _ => habsent hpersisted _, hdocuments⟩
    intro singleton hsingleton
    cases hsingleton
    exact ⟨rfl, fun _ => rfl⟩
  | true =>
    refine ⟨nofun, nofun, fun _ hinitial => (some.inj hinitial).symm, ?_, nofun,
      fun _ _ => rfl, fun hpersisted _ _ => habsent hpersisted _, hdocuments⟩
    intro keyed hkeyed key value hsource
    cases hkeyed
    cases hsource

variable {resident : Resident}

theorem KeyedSlot.migrated_of_version
    (hversion : resident.version = keyed.definition.current.version) :
    keyed.migrated resident = resident :=
  if_pos hversion

theorem KeyedSlot.migrated_version (keyed : KeyedSlot) (resident : Resident) :
    (keyed.migrated resident).version = keyed.definition.current.version := by
  rw [KeyedSlot.migrated]
  split
  · next hversion => exact hversion
  · rfl

/-- What a sound keyed slot holds at a key. -/
structure Resident.Sound (changes : Option (List Nat)) (persisted : Bool) (resident : Resident) :
    Prop where
  produced : resident.value.Produced resident.version
  kept : changes = some resident.value.changes
  stored : persisted = true → resident.stored.isSome = true

variable {changes : Option (List Nat)} {persisted : Bool}

theorem Resident.Sound.migrated (hsound : resident.Sound changes persisted) (keyed : KeyedSlot) :
    (keyed.migrated resident).Sound changes persisted := by
  rw [KeyedSlot.migrated]
  split
  · exact hsound
  · exact ⟨⟨rfl, hsound.produced⟩, hsound.kept, hsound.stored⟩

theorem SlotSound.each (hsound : SlotSound committed documents (.keyed keyed))
    (hfound : keyed.residents key = some resident) :
    resident.Sound (committed key) keyed.persisted := by
  have hheld : (Slot.keyed keyed).held key = some resident.value := by
    rw [Slot.held, hfound]
    rfl
  refine ⟨?_, hsound.kept key resident.value hheld, fun hpersisted => ?_⟩
  · have hproduced := hsound.held key resident.value hheld
    rw [Slot.heldVersion, hfound] at hproduced
    exact hproduced
  have hstored := hsound.stored hpersisted key
  rw [Slot.stored, Slot.held, hfound] at hstored
  exact hstored

/-- A keyed slot is sound when each of its residents is. -/
theorem SlotSound.of_residents (hsound : SlotSound committed documents (.keyed keyed))
    {definition : SlotDefinition} {residents : Key → Option Resident}
    {sources : Key → Option Value}
    (hresident : ∀ key resident, residents key = some resident →
      resident.Sound (committed key) keyed.persisted)
    (habsent : keyed.persisted = false → ∀ key, residents key = none → keyed.residents key = none)
    (hsource : ∀ key value, sources key = some value →
      value = .initial definition.current.version) :
    SlotSound committed documents
      (.keyed { keyed with
        definition := definition, residents := residents, sources := sources }) := by
  refine ⟨?_, ?_, fun _ hinitial => (some.inj hinitial).symm, ?_, nofun, ?_, ?_,
    hsound.documents⟩
  · intro key value hheld
    obtain ⟨resident, hfound, rfl⟩ := map_eq_some_iff.mp hheld
    rw [Slot.heldVersion, hfound]
    exact (hresident key resident hfound).produced
  · intro key value hheld
    obtain ⟨resident, hfound, rfl⟩ := map_eq_some_iff.mp hheld
    exact (hresident key resident hfound).kept
  · intro other hother key value hvalue
    cases hother
    exact hsource key value hvalue
  · intro hpersisted key
    rw [Slot.stored, Slot.held]
    dsimp only
    cases hfound : residents key with
    | none => rfl
    | some resident => exact (hresident key resident hfound).stored hpersisted
  intro hpersisted key hheld
  apply hsound.absent hpersisted key
  rw [Slot.held, habsent hpersisted key (map_eq_none_iff.mp hheld)]
  rfl

/-- The residents kept as they are. -/
theorem SlotSound.of_sources (hsound : SlotSound committed documents (.keyed keyed))
    (definition : SlotDefinition) (sources : Key → Option Value)
    (hsource : ∀ key value, sources key = some value →
      value = .initial definition.current.version) :
    SlotSound committed documents
      (.keyed { keyed with definition := definition, sources := sources }) :=
  hsound.of_residents (fun _ _ => hsound.each) (fun _ _ => id) hsource

theorem KeyedSlot.access_residents_self (keyed : KeyedSlot) (key : Key) :
    (keyed.access key).residents key = (keyed.residents key).map keyed.migrated :=
  update_self _ _ _

theorem SlotSound.access (hsound : SlotSound committed documents slot) (key : Key) :
    SlotSound committed documents (slot.access key) := by
  cases slot with
  | singleton singleton => exact hsound
  | keyed keyed =>
    refine hsound.of_residents ?_ ?_ (hsound.source keyed rfl)
    · intro other resident hfound
      by_cases hother : other = key
      · subst hother
        rw [update_self] at hfound
        obtain ⟨before, hbefore, rfl⟩ := map_eq_some_iff.mp hfound
        exact (hsound.each hbefore).migrated keyed
      rw [update_of_ne hother] at hfound
      exact hsound.each hfound
    intro _ other hnone
    by_cases hother : other = key
    · subst hother
      rw [update_self] at hnone
      exact map_eq_none_iff.mp hnone
    · rwa [update_of_ne hother] at hnone

theorem Slot.access_keeps (slot : Slot) (used key : Key) : slot.Keeps (slot.access used) key := by
  cases slot with
  | singleton singleton => exact Keeps.refl _ key
  | keyed keyed =>
    have hresident : heldVersion key (.keyed keyed) = version (.keyed keyed) →
        (keyed.access used).residents key = keyed.residents key := by
      intro hversion
      by_cases hused : key = used
      · subst hused
        rw [KeyedSlot.access_residents_self]
        cases hfound : keyed.residents key with
        | none => rfl
        | some resident =>
          rw [heldVersion, hfound] at hversion
          rw [map_some, KeyedSlot.migrated_of_version hversion]
      · exact update_of_ne hused _ _
    refine ⟨⟨fun _ => rfl, rfl, rfl, id, ?_⟩, ?_, ?_⟩
    · intro hversion
      rw [heldVersion, Slot.access, heldVersion, hresident hversion]
      rfl
    · intro hversion
      rw [held, Slot.access, held, hresident hversion]
    intro hversion
    rw [Slot.stored, Slot.access, Slot.stored, hresident hversion]

/-- A document that was used is at the slot's version. -/
theorem Slot.heldVersion_access (slot : Slot) (key : Key) :
    (slot.access key).heldVersion key = slot.version := by
  cases slot with
  | singleton singleton => rfl
  | keyed keyed =>
    rw [access, heldVersion, KeyedSlot.access_residents_self]
    cases keyed.residents key with
    | none => rfl
    | some resident => exact keyed.migrated_version resident

/-- An access makes no document. -/
theorem Slot.held_of_access (hnone : (slot.access key).held key = none) : slot.held key = none := by
  cases slot with
  | singleton singleton => exact hnone
  | keyed keyed =>
    rw [access, held, KeyedSlot.access_residents_self] at hnone
    rw [held, map_eq_none_iff]
    exact map_eq_none_iff.mp (map_eq_none_iff.mp hnone)

theorem Slot.access_version (slot : Slot) (key : Key) :
    (slot.access key).version = slot.version := by
  cases slot with
  | singleton singleton => rfl
  | keyed keyed => rfl

/-! ### Hydrations -/

variable {definition : Definition}

/-- A declaration of the values' own version is their definition. -/
theorem SlotDefinition.eq_of_check {slot : SlotDefinition} (hcheck : slot.check definition = true)
    (hversion : slot.current.version = definition.version) : slot.current = definition := by
  obtain ⟨version, fingerprint⟩ := definition
  obtain ⟨⟨current, schema⟩, hydrated⟩ := slot
  simp only [check] at hcheck hversion ⊢
  subst hversion
  simp at hcheck
  rw [hcheck]

/-- A newer definition gives every pinned key a value of its own: no key is pinned, or
the slot was hydrated before and the migrations of the pinned documents succeed. -/
def Slot.Retakes (migrates : Bool) : Slot → Prop
  | .singleton _ => True
  | .keyed keyed => (∀ key, keyed.sources key = none) ∨
      (keyed.definition.hydrated = true ∧ migrates = true)

theorem SlotSound.hydrate_singleton (hsound : SlotSound committed documents (.singleton singleton))
    (hcheck : singleton.definition.check definition = true) :
    SlotSound committed documents (.singleton (singleton.hydrate definition)) := by
  rw [SingletonSlot.hydrate]
  split
  next hsame =>
    have hcurrent := SlotDefinition.eq_of_check hcheck hsame.2
    refine ⟨?_, hsound.kept, ?_, nofun, ?_, hsound.stored, hsound.absent, hsound.documents⟩
    · intro key value hheld
      rw [Slot.heldVersion, SlotDefinition.hydrate, ← hcurrent]
      exact hsound.held key value hheld
    · intro value hinitial
      rw [Slot.version, Slot.definition, SlotDefinition.hydrate, ← hcurrent]
      exact hsound.initial value hinitial
    intro other hother
    cases hother
    refine ⟨?_, fun hfalse => Bool.noConfusion hfalse⟩
    exact hsame.1.symm.trans (hsound.hydrated singleton rfl).1
  -- Before the first hydration there is no value to migrate.
  have htracker : ∀ value,
      (if singleton.definition.hydrated = true then
        singleton.tracker.map (definition.migrate · singleton.definition.current.version)
        else singleton.tracker) = some value →
      ∃ before, singleton.tracker = some before ∧
        value = definition.migrate before singleton.definition.current.version := by
    intro value hvalue
    split at hvalue
    · obtain ⟨before, hbefore, rfl⟩ := map_eq_some_iff.mp hvalue
      exact ⟨before, hbefore, rfl⟩
    next hhydrated =>
      rw [(hsound.hydrated singleton rfl).2 (Bool.not_eq_true _ ▸ hhydrated)] at hvalue
      cases hvalue
  have hsome : (if singleton.definition.hydrated = true then
        singleton.tracker.map (definition.migrate · singleton.definition.current.version)
        else singleton.tracker).isSome = singleton.tracker.isSome := by
    split
    · rw [isSome_map]
    · rfl
  refine ⟨?_, ?_, fun _ hinitial => (some.inj hinitial).symm, nofun, ?_, ?_, ?_,
    hsound.documents⟩
  · intro key value hheld
    obtain ⟨before, hbefore, rfl⟩ := htracker value hheld
    exact ⟨rfl, hsound.held [] before hbefore⟩
  · intro key value hheld
    obtain ⟨before, hbefore, rfl⟩ := htracker value hheld
    exact hsound.kept key before hbefore
  · intro other hother
    cases hother
    exact ⟨rfl, fun hfalse => Bool.noConfusion hfalse⟩
  · intro hpersisted key
    exact (hsound.stored hpersisted key).trans hsome.symm
  intro hpersisted key hheld
  apply hsound.absent hpersisted key
  rw [Slot.held] at hheld ⊢
  rw [← isNone_iff_eq_none, ← not_isSome, Bool.not_eq_true'] at hheld ⊢
  rw [← hsome]
  exact hheld

variable {migrates : Bool}

theorem SlotSound.hydrate_keyed (hsound : SlotSound committed documents (.keyed keyed))
    (hcheck : keyed.definition.check definition = true)
    (hallowed : keyed.definition.current.version = definition.version ∨
      (Slot.keyed keyed).Retakes migrates) :
    SlotSound committed documents (.keyed (keyed.hydrate definition migrates)) := by
  rw [KeyedSlot.hydrate]
  split
  next hkept =>
    apply hsound.of_sources _ keyed.sources
    intro key value hvalue
    rcases hallowed with hversion | hnone | ⟨hhydrated, -⟩
    · rw [SlotDefinition.hydrate, ← SlotDefinition.eq_of_check hcheck hversion]
      exact hsound.source keyed rfl key value hvalue
    · rw [hnone key] at hvalue
      cases hvalue
    have hversion := hkept.resolve_left (by rw [hhydrated]; exact Bool.noConfusion)
    rw [SlotDefinition.hydrate, ← SlotDefinition.eq_of_check hcheck hversion]
    exact hsound.source keyed rfl key value hvalue
  rename_i hnewer
  split
  · refine hsound.of_residents ?_ ?_ ?_
    · intro key resident hfound
      split at hfound
      · obtain ⟨before, hbefore, rfl⟩ := map_eq_some_iff.mp hfound
        exact (hsound.each hbefore).migrated _
      · exact hsound.each hfound
    · intro _ key hnone
      split at hnone
      · exact map_eq_none_iff.mp hnone
      · exact hnone
    intro key value hvalue
    obtain ⟨before, -, rfl⟩ := map_eq_some_iff.mp hvalue
    rfl
  next hfails =>
    apply hsound.of_sources _ keyed.sources
    intro key value hvalue
    rcases hallowed with hversion | hnone | ⟨-, hmigrates⟩
    · exact absurd (Or.inr hversion) hnewer
    · rw [hnone key] at hvalue
      cases hvalue
    · exact absurd hmigrates hfails

theorem SlotSound.hydrate (hsound : SlotSound committed documents slot)
    (hcheck : slot.definition.check definition = true)
    (hallowed : slot.version = definition.version ∨ slot.Retakes migrates) :
    SlotSound committed documents (slot.hydrate definition migrates) := by
  cases slot with
  | singleton singleton => exact hsound.hydrate_singleton hcheck
  | keyed keyed => exact hsound.hydrate_keyed hcheck hallowed

theorem Slot.hydrate_current (slot : Slot) (definition : Definition) (migrates : Bool) :
    (slot.hydrate definition migrates).definition.current = definition := by
  cases slot with
  | singleton singleton =>
    rw [Slot.hydrate, Slot.definition, SingletonSlot.hydrate]
    split <;> rfl
  | keyed keyed =>
    rw [Slot.hydrate, Slot.definition, KeyedSlot.hydrate]
    split
    · rfl
    · split <;> rfl

theorem Slot.hydrate_key (slot : Slot) (definition : Definition) (migrates : Bool)
    (key : Key) : (slot.hydrate definition migrates).key key = slot.key key := by
  cases slot with
  | singleton singleton => rfl
  | keyed keyed => rfl

theorem Slot.hydrate_persisted (slot : Slot) (definition : Definition) (migrates : Bool) :
    (slot.hydrate definition migrates).persisted = slot.persisted := by
  cases slot with
  | singleton singleton =>
    rw [Slot.hydrate, Slot.persisted, SingletonSlot.hydrate]
    split <;> rfl
  | keyed keyed =>
    rw [Slot.hydrate, Slot.persisted, KeyedSlot.hydrate]
    split
    · rfl
    · split <;> rfl

theorem Slot.hydrate_initial (slot : Slot) (definition : Definition) (migrates : Bool)
    (hinitial : slot.initial.isSome = true) :
    (slot.hydrate definition migrates).initial.isSome = true := by
  cases slot with
  | singleton singleton =>
    rw [Slot.hydrate, Slot.initial, SingletonSlot.hydrate]
    split
    · exact hinitial
    · rfl
  | keyed keyed => rfl

/-- A hydration with the values' own version leaves the documents as they are. -/
theorem Slot.hydrate_keeps (migrates : Bool) (hcheck : slot.definition.check definition = true)
    (hversion : slot.version = definition.version) (key : Key) :
    slot.Keeps (slot.hydrate definition migrates) key := by
  have hcurrent := SlotDefinition.eq_of_check hcheck hversion
  have hsame : (slot.hydrate definition migrates).held key = slot.held key ∧
      (slot.hydrate definition migrates).heldVersion key = slot.heldVersion key ∧
      (slot.hydrate definition migrates).stored key = slot.stored key := by
    cases slot with
    | singleton singleton =>
      rw [Slot.hydrate, SingletonSlot.hydrate]
      split
      · exact ⟨rfl, hversion.symm, rfl⟩
      rename_i hnew
      have hhydrated : singleton.definition.hydrated = false := by
        by_contra hhydrated
        exact hnew ⟨Bool.not_eq_false _ ▸ hhydrated, hversion⟩
      refine ⟨?_, hversion.symm, rfl⟩
      rw [Slot.held, Slot.held]
      rw [hhydrated]
      rfl
    | keyed keyed =>
      have hkept : keyed.definition.hydrated = false ∨
          keyed.definition.current.version = definition.version := Or.inr hversion
      rw [Slot.hydrate, KeyedSlot.hydrate, if_pos hkept]
      refine ⟨rfl, ?_, rfl⟩
      rw [Slot.heldVersion, Slot.heldVersion]
      rw [← hcurrent]
      rfl
  exact ⟨⟨slot.hydrate_key definition migrates, slot.hydrate_persisted definition migrates,
    (slot.hydrate_current definition migrates).trans hcurrent.symm,
    slot.hydrate_initial definition migrates, fun _ => hsame.2.1⟩,
    fun _ => hsame.1, fun _ => hsame.2.2⟩

/-! ### Loads, pins and evictions -/

theorem decode_eq_some {document : StoredDocument} {value : Value}
    {stored : Stored} (hdecode : decode document definition = some (value, stored))
    (hdocument : document.value.Produced document.version) :
    value.Produced definition.version ∧ value.changes = document.value.changes := by
  rw [decode] at hdecode
  split at hdecode
  · obtain ⟨hvalue, -⟩ := Prod.mk.inj (some.inj hdecode)
    subst hvalue
    split
    · next hversion => exact ⟨hversion ▸ hdocument, rfl⟩
    · exact ⟨⟨rfl, hdocument⟩, rfl⟩
  · cases hdecode

theorem SlotSound.load_singleton (hsound : SlotSound committed documents (.singleton singleton))
    (hpersisted : singleton.persisted = true) (hhydrated : singleton.definition.hydrated = true)
    (hdocument : ∀ document, documents [] = some document →
      document.value.Produced document.version)
    {loaded : SingletonSlot} (hload : singleton.load (documents []) = some loaded) :
    SlotSound committed documents (.singleton loaded) := by
  rw [SingletonSlot.load.eq_def] at hload
  split at hload
  · cases hload
    exact hsound
  split at hload
  · cases hload
    refine { hsound with source := nofun, hydrated := ?_ }
    intro other hother
    cases hother
    exact hsound.hydrated singleton rfl
  rename_i found hfound
  obtain ⟨⟨value, stored⟩, hdecode, rfl⟩ := map_eq_some_iff.mp hload
  obtain ⟨hproduced, hchanges⟩ := decode_eq_some hdecode (hdocument found hfound)
  refine ⟨?_, ?_, hsound.initial, nofun, ?_, fun _ _ => rfl, ?_, hsound.documents⟩
  · intro key held hheld
    cases hheld
    exact hproduced
  · intro key held hheld
    cases hheld
    rw [hchanges, Slot.key, hsound.documents hpersisted, hfound]
    rfl
  · intro other hother
    cases hother
    refine ⟨(hsound.hydrated singleton rfl).1, ?_⟩
    intro hfalse
    rw [hhydrated] at hfalse
    cases hfalse
  intro hmemory
  rw [Slot.persisted] at hmemory
  rw [hpersisted] at hmemory
  cases hmemory

variable {document : Option StoredDocument} {loaded : KeyedSlot}

/-- What a load of a keyed document does. -/
theorem KeyedSlot.load_eq_some
    (hload : keyed.load key document = some loaded) :
    loaded = keyed ∨ ∃ found value stored, keyed.residents key = none ∧
      document = some found ∧
      decode found keyed.definition.current = some (value, stored) ∧
      loaded = { keyed with
        residents := update keyed.residents key
          (some ⟨value, some stored, keyed.definition.current.version⟩) } := by
  rw [KeyedSlot.load.eq_def] at hload
  split at hload
  · exact .inl (some.inj hload).symm
  · exact .inl (some.inj hload).symm
  next found hresident =>
    obtain ⟨⟨value, stored⟩, hdecode, rfl⟩ := map_eq_some_iff.mp hload
    exact .inr ⟨found, value, stored, hresident, rfl, hdecode, rfl⟩

theorem SlotSound.load_keyed (hsound : SlotSound committed documents (.keyed keyed))
    (hpersisted : keyed.persisted = true) (hdocument : ∀ document, documents key = some document →
      document.value.Produced document.version)
    (hload : keyed.load key (documents key) = some loaded) :
    SlotSound committed documents (.keyed loaded) := by
  obtain rfl | ⟨found, value, stored, -, hfound, hdecode, rfl⟩ :=
    KeyedSlot.load_eq_some hload
  · exact hsound
  obtain ⟨hproduced, hchanges⟩ := decode_eq_some hdecode (hdocument found hfound)
  refine hsound.of_residents ?_ ?_ (hsound.source keyed rfl)
  · intro other resident hresident
    by_cases hother : other = key
    · subst hother
      rw [update_self] at hresident
      cases hresident
      refine ⟨hproduced, ?_, fun _ => rfl⟩
      rw [hsound.documents hpersisted, hfound, hchanges]
      rfl
    rw [update_of_ne hother] at hresident
    exact hsound.each hresident
  intro hmemory
  rw [hpersisted] at hmemory
  cases hmemory

/-- A load leaves the documents already in memory, and what the store does not have, as
they are. -/
theorem KeyedSlot.load_keeps {used : Key}
    (hload : keyed.load used document = some loaded) (key : Key)
    (hkey : key ≠ used ∨ document = none ∨ (keyed.residents used).isSome = true) :
    (Slot.keyed keyed).Keeps (.keyed loaded) key := by
  obtain rfl | ⟨found, value, stored, hresident, hfound, -, rfl⟩ :=
    KeyedSlot.load_eq_some hload
  · exact Slot.Keeps.refl _ key
  rcases hkey with hkey | hnone | hsome
  · refine ⟨⟨fun _ => rfl, rfl, rfl, id, fun _ => ?_⟩, fun _ => ?_, fun _ => ?_⟩
    · rw [Slot.heldVersion, Slot.heldVersion]
      dsimp only
      rw [update_of_ne hkey]
    · rw [Slot.held, Slot.held]
      dsimp only
      rw [update_of_ne hkey]
    rw [Slot.stored, Slot.stored]
    dsimp only
    rw [update_of_ne hkey]
  · rw [hfound] at hnone
    cases hnone
  · rw [hresident] at hsome
    cases hsome

/-- What a load installs is at the slot's version. -/
theorem KeyedSlot.load_stays {used : Key}
    (hload : keyed.load used document = some loaded) (key : Key) :
    (Slot.keyed keyed).Stays (.keyed loaded) key := by
  obtain rfl | ⟨found, value, stored, -, -, -, rfl⟩ := KeyedSlot.load_eq_some hload
  · exact (Slot.Keeps.refl _ key).toStays
  refine ⟨fun _ => rfl, rfl, rfl, id, ?_⟩
  intro hversion
  rw [hversion, Slot.heldVersion]
  rw [Slot.heldVersion] at hversion
  dsimp only
  by_cases hkey : key = used
  · subst hkey
    rw [update_self]
    rfl
  rw [update_of_ne hkey]
  exact hversion

theorem SlotSound.pin (hsound : SlotSound committed documents (.keyed keyed)) (key : Key) :
    SlotSound committed documents (.keyed (keyed.pin key)) := by
  rw [KeyedSlot.pin]
  split
  · exact hsound
  refine hsound.of_sources keyed.definition _ fun pinned value hvalue => ?_
  by_cases hpinned : pinned = key
  · subst hpinned
    rw [update_self] at hvalue
    exact (some.inj hvalue).symm
  rw [update_of_ne hpinned] at hvalue
  exact hsound.source keyed rfl pinned value hvalue

theorem SlotSound.unpin (hsound : SlotSound committed documents (.keyed keyed)) (key : Key) :
    SlotSound committed documents (.keyed (keyed.unpin key)) := by
  refine hsound.of_sources keyed.definition _ fun pinned value hvalue => ?_
  by_cases hpinned : pinned = key
  · subst hpinned
    rw [update_self] at hvalue
    cases hvalue
  rw [update_of_ne hpinned] at hvalue
  exact hsound.source keyed rfl pinned value hvalue

theorem Slot.pin_keeps (keyed : KeyedSlot) (used key : Key) :
    (Slot.keyed keyed).Keeps (.keyed (keyed.pin used)) key := by
  rw [KeyedSlot.pin]
  split
  · exact Keeps.refl _ key
  · exact ⟨⟨fun _ => rfl, rfl, rfl, id, fun _ => rfl⟩, fun _ => rfl, fun _ => rfl⟩

theorem Slot.unpin_keeps (keyed : KeyedSlot) (used key : Key) :
    (Slot.keyed keyed).Keeps (.keyed (keyed.unpin used)) key :=
  ⟨⟨fun _ => rfl, rfl, rfl, id, fun _ => rfl⟩, fun _ => rfl, fun _ => rfl⟩

theorem SlotSound.evict (hsound : SlotSound committed documents (.keyed keyed))
    (hpersisted : keyed.persisted = true) (key : Key) :
    SlotSound committed documents (.keyed (keyed.remove key)) := by
  refine hsound.of_residents ?_ (fun hmemory => ?_) (hsound.source keyed rfl)
  · intro other resident hresident
    by_cases hother : other = key
    · subst hother
      rw [update_self] at hresident
      cases hresident
    rw [update_of_ne hother] at hresident
    exact hsound.each hresident
  rw [hpersisted] at hmemory
  cases hmemory

end Hummin.Documents
