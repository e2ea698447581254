/-
Commits of documents: what a transaction's drafts and prepared changes stand for
while it holds the line, and that adopting them keeps the slots sound.
-/
import Hummin.DocumentVersions

namespace Hummin.Documents

open List Option Function

variable {committed : Key → Option (List Nat)} {documents : Key → Option StoredDocument}
variable {slot next : Slot} {entry : Entry} {adoption : Adoption}

/-! ### Entries and adoptions -/

/-- The value a draft of the document starts from. -/
def Slot.base (slot : Slot) (key : Key) (retire : Bool) : Value :=
  (if retire then none else slot.held key).getD (.initial slot.version)

/-- An entry's draft was begun through a handle of the slot's version, on the document
as the slot has it; a keyed one absent from memory is not stored either. -/
structure EntrySound (slot : Slot) (document : Option StoredDocument) (entry : Entry) :
    Prop where
  key : slot.key entry.key = entry.key
  found : entry.found.isSome = true → entry.retire = true
  draft : ∀ draft, entry.draft = some draft → draft.handle = slot.version ∧
    draft.base = slot.base entry.key entry.retire ∧ slot.initial.isSome = true
  current : entry.draft.isSome = true → entry.retire = false →
    slot.heldVersion entry.key = slot.version ∧
    (slot.persisted = true → (∀ raw, slot.key raw = raw) → slot.held entry.key = none →
      document = none)

variable {document : Option StoredDocument}

/-- An entry stays sound when the document it drafted stays as it is. -/
theorem EntrySound.keep
    (hentry : EntrySound slot document entry) (hstays : slot.Stays next entry.key)
    (hheld : entry.draft.isSome = true → entry.retire = false →
      next.held entry.key = slot.held entry.key) : EntrySound next document entry := by
  refine ⟨(hstays.address entry.key).trans hentry.key, hentry.found, ?_, ?_⟩
  · intro draft hdraft
    obtain ⟨hhandle, hbase, hinitial⟩ := hentry.draft draft hdraft
    refine ⟨hhandle.trans hstays.version.symm, ?_, hstays.initial hinitial⟩
    rw [hbase, Slot.base, Slot.base, hstays.version]
    cases hretire : entry.retire with
    | true => rfl
    | false => rw [hheld (by rw [hdraft]; rfl) hretire]
  intro hdraft hretire
  obtain ⟨hversion, habsent⟩ := hentry.current hdraft hretire
  refine ⟨?_, ?_⟩
  · rw [hstays.heldVersion hversion, hversion, hstays.version]
  intro hpersisted hkeyed hnone
  apply habsent (hstays.persisted.symm.trans hpersisted)
  · intro raw
    rw [← hstays.address raw, hkeyed raw]
  · rw [← hheld hdraft hretire, hnone]

theorem EntrySound.keeps
    (hentry : EntrySound slot document entry) (hkeeps : slot.Keeps next entry.key) :
    EntrySound next document entry := by
  apply hentry.keep hkeeps.toStays
  intro hdraft hretire
  exact hkeeps.held (hentry.current hdraft hretire).1

/-- What a transaction adopts of a document: a change of the document as the slot has
it, prepared for the slot's definition, or a retirement. -/
structure AdoptionSound (slot : Slot) (adoption : Adoption) : Prop where
  key : slot.key adoption.key = adoption.key
  retired : adoption.prepared = none → adoption.retires = true
  memory : slot.persisted = false → adoption.writes = [] ∧ adoption.stored = none
  change : ∀ prepared, adoption.prepared = some prepared →
    prepared.edit.handle = slot.version ∧
    prepared.value = .drafted prepared.edit (slot.base adoption.key adoption.retires) ∧
    slot.initial.isSome = true ∧
    (adoption.retires = false → slot.heldVersion adoption.key = slot.version)
  staged : slot.persisted = true → ∃ definition was checkpoint stored,
    stage definition was adoption.prepared adoption.retires checkpoint =
      (adoption.writes, stored) ∧ adoption.stored = some stored ∧
    (adoption.retires = true → was.isSome = true) ∧
    (adoption.retires = false → was = slot.stored adoption.key) ∧
    (adoption.prepared.isSome = true → definition = slot.definition.current)

theorem AdoptionSound.keep (hadoption : AdoptionSound slot adoption)
    (hkeeps : slot.Keeps next adoption.key) : AdoptionSound next adoption := by
  refine ⟨(hkeeps.address adoption.key).trans hadoption.key, hadoption.retired, ?_, ?_, ?_⟩
  · intro hmemory
    exact hadoption.memory (hkeeps.persisted.symm.trans hmemory)
  · intro prepared hprepared
    obtain ⟨hhandle, hvalue, hinitial, hversion⟩ := hadoption.change prepared hprepared
    refine ⟨hhandle.trans hkeeps.version.symm, ?_, hkeeps.initial hinitial, ?_⟩
    · rw [hvalue, Slot.base, Slot.base, hkeeps.version]
      cases hretires : adoption.retires with
      | true => rfl
      | false => rw [hkeeps.held (hversion hretires)]
    intro hretires
    rw [hkeeps.heldVersion (hversion hretires), hversion hretires, hkeeps.version]
  intro hpersisted
  obtain ⟨definition, was, checkpoint, stored, hstage, hstored, hretires, hwas, hcurrent⟩ :=
    hadoption.staged (hkeeps.persisted.symm.trans hpersisted)
  refine ⟨definition, was, checkpoint, stored, hstage, hstored, hretires, ?_, ?_⟩
  · intro hkept
    cases hprepared : adoption.prepared with
    | none =>
      rw [hadoption.retired hprepared] at hkept
      cases hkept
    | some prepared =>
      obtain ⟨-, -, -, hversion⟩ := hadoption.change prepared hprepared
      rw [hwas hkept, hkeeps.stored (hversion hkept)]
  intro hprepared
  rw [hcurrent hprepared, hkeeps.current]

/-- A hydration with a newer version does not touch a retirement. -/
theorem AdoptionSound.hydrate (hadoption : AdoptionSound slot adoption)
    (hprepared : adoption.prepared = none) (definition : Definition) (migrates : Bool) :
    AdoptionSound (slot.hydrate definition migrates) adoption := by
  have hretires := hadoption.retired hprepared
  refine ⟨(slot.hydrate_key definition migrates _).trans hadoption.key, hadoption.retired,
    ?_, ?_, ?_⟩
  · intro hmemory
    rw [Slot.hydrate_persisted] at hmemory
    exact hadoption.memory hmemory
  · intro prepared hsome
    rw [hprepared] at hsome
    cases hsome
  intro hpersisted
  rw [Slot.hydrate_persisted] at hpersisted
  obtain ⟨staged, was, checkpoint, stored, hstage, hstored, hwas, -, -⟩ :=
    hadoption.staged hpersisted
  refine ⟨staged, was, checkpoint, stored, hstage, hstored, hwas, ?_, ?_⟩
  · intro hkept
    rw [hretires] at hkept
    cases hkept
  intro hsome
  rw [hprepared] at hsome
  cases hsome

/-! ### What a commit's writes leave in the store -/

variable {definition : Definition} {was : Option Stored} {checkpoint : Bool} {writes : List Write}
    {stored : StoredChange} {after : Option StoredDocument}

/-- A retirement alone leaves no record. -/
theorem applyWrites_stage_retire
    (hstage : stage definition was none true checkpoint = (writes, stored))
    (hwas : was.isSome = true)
    (happly : applyWrites document writes = some after) : after = none := by
  obtain ⟨known, rfl⟩ := isSome_iff_exists.mp hwas
  cases hstage
  simp only [↓reduceIte, applyWrites, bind_eq_some_iff] at happly
  obtain ⟨retired, hretired, hafter⟩ := happly
  cases hafter
  rw [Write.apply.eq_def] at hretired
  dsimp only at hretired
  split at hretired
  · split at hretired
    · exact (some.inj hretired).symm
    · cases hretired
  · cases hretired

variable {prepared : Prepared} {retires : Bool}

theorem applyWrites_singleton (document : Option StoredDocument) (write : Write) :
    applyWrites document [write] = write.apply document :=
  bind_fun_some _

theorem apply_create {value : Value}
    (hcreate : (Write.create definition value).apply document = some after) :
    document = none ∧ after = some ⟨1, definition.version, definition.fingerprint, value, 0⟩ := by
  cases document with
  | none => exact ⟨rfl, (some.inj hcreate).symm⟩
  | some before => cases hcreate

/-- A change leaves its value at the definition's version, whole or as a delta on a
record of that version; one that creates the document finds none before it. -/
theorem applyWrites_stage_change
    (hstage : stage definition was (some prepared) retires checkpoint = (writes, stored))
    (happly : applyWrites document writes = some after) :
    (storedAfter stored).isSome = true ∧
    (retires = false → was = none → document = none) ∧
    ∃ found, after = some found ∧ found.version = definition.version ∧
      (found.value = prepared.value ∨ retires = false ∧ ∃ before, document = some before ∧
        before.version = definition.version ∧
        found.value = .drafted prepared.edit before.value) := by
  rw [stage.eq_def] at hstage
  cases retires with
  | true =>
    simp only [↓reduceIte, Prod.mk.injEq] at hstage
    obtain ⟨rfl, rfl⟩ := hstage
    refine ⟨rfl, fun hkept => Bool.noConfusion hkept, ?_⟩
    cases was with
    | none =>
      obtain ⟨-, rfl⟩ := apply_create (applyWrites_singleton document _ ▸ happly)
      exact ⟨_, rfl, rfl, .inl rfl⟩
    | some known =>
      simp only [cons_append, nil_append, applyWrites.eq_2 document,
        bind_eq_some_iff, applyWrites_singleton] at happly
      obtain ⟨retired, -, hcreated⟩ := happly
      obtain ⟨-, rfl⟩ := apply_create hcreated
      exact ⟨_, rfl, rfl, .inl rfl⟩
  | false =>
    simp only [Bool.false_eq_true, ↓reduceIte] at hstage
    cases was with
    | none =>
      obtain ⟨rfl, rfl⟩ := hstage
      obtain ⟨rfl, rfl⟩ := apply_create (applyWrites_singleton document _ ▸ happly)
      exact ⟨rfl, fun _ _ => rfl, _, rfl, rfl, .inl rfl⟩
    | some known =>
      dsimp only at hstage
      split at hstage
      all_goals
        simp only [nil_append, Prod.mk.injEq] at hstage
        obtain ⟨rfl, rfl⟩ := hstage
        refine ⟨rfl, nofun, ?_⟩
        rw [applyWrites_singleton] at happly
        cases document with
        | none => cases happly
        | some before =>
          rw [Write.apply.eq_def] at happly
          dsimp only at happly
          split at happly
          · cases happly
            first
              | exact ⟨_, rfl, rfl, .inl rfl⟩
              | next hsame => exact ⟨_, rfl, hsame.2, .inr ⟨rfl, before, rfl, hsame.2, rfl⟩⟩
          · cases happly

/-! ### Adoptions -/

variable {key : Key}

/-- The adopted document is what the commit prepared. -/
theorem Adoption.adopt_self (hadoption : AdoptionSound slot adoption)
    (hkey : slot.key key = adoption.key) :
    (adoption.adopt slot).held key = adoption.prepared.map (·.value) ∧
      (adoption.adopt slot).stored key =
        adoption.prepared.bind fun _ => adoption.stored.bind storedAfter := by
  have hretired := hadoption.retired
  rw [Adoption.adopt]
  cases slot with
  | singleton singleton =>
    cases hprepared : adoption.prepared with
    | none =>
      rw [if_pos (hretired hprepared)]
      exact ⟨rfl, rfl⟩
    | some prepared =>
      dsimp only
      split <;> exact ⟨rfl, rfl⟩
  | keyed keyed =>
    have hkey : key = adoption.key := hkey
    subst hkey
    cases hprepared : adoption.prepared with
    | none =>
      rw [if_pos (hretired hprepared)]
      simp [Slot.retire, Slot.held, Slot.stored, KeyedSlot.remove]
    | some prepared =>
      dsimp only
      split <;>
        simp [Slot.retire, Slot.adopt, Slot.held, Slot.stored, KeyedSlot.adopt]

theorem Adoption.adopt_heldVersion_self (adoption : Adoption)
    (hkey : slot.key key = adoption.key) (hprepared : adoption.prepared.isSome = true) :
    (adoption.adopt slot).heldVersion key = slot.version := by
  obtain ⟨prepared, hprepared⟩ := isSome_iff_exists.mp hprepared
  rw [Adoption.adopt, hprepared]
  cases slot with
  | singleton singleton =>
    dsimp only
    split <;> rfl
  | keyed keyed =>
    have hkey : key = adoption.key := hkey
    subst hkey
    dsimp only
    split <;>
      simp only [Slot.retire, Slot.adopt, Slot.heldVersion, KeyedSlot.adopt,
        update_self, map_some, getD_some] <;> rfl

/-- The other documents of the slot stay as they are. -/
theorem Adoption.adopt_other (adoption : Adoption)
    (hkey : slot.key key ≠ adoption.key) (hnormal : slot.key adoption.key = adoption.key) :
    (adoption.adopt slot).held key = slot.held key ∧
      (adoption.adopt slot).heldVersion key = slot.heldVersion key ∧
      (adoption.adopt slot).stored key = slot.stored key := by
  cases slot with
  | singleton singleton => exact absurd hnormal hkey
  | keyed keyed =>
    have hkey : key ≠ adoption.key := hkey
    rw [Adoption.adopt]
    cases adoption.prepared with
    | none =>
      dsimp only
      split
      · simp only [Slot.retire, Slot.held, Slot.heldVersion, Slot.stored,
          KeyedSlot.remove, update_of_ne hkey, and_self]
      · exact ⟨rfl, rfl, rfl⟩
    | some prepared =>
      dsimp only
      split <;>
        simp only [Slot.retire, Slot.adopt, Slot.held, Slot.heldVersion, Slot.stored,
          KeyedSlot.remove, KeyedSlot.adopt, update_of_ne hkey, and_self]

theorem Adoption.adopt_key (adoption : Adoption) (slot : Slot) (key : Key) :
    (adoption.adopt slot).key key = slot.key key := by
  rw [Adoption.adopt]
  cases slot <;> cases adoption.prepared <;> cases adoption.retires <;> rfl

theorem Adoption.adopt_persisted (adoption : Adoption) (slot : Slot) :
    (adoption.adopt slot).persisted = slot.persisted := by
  rw [Adoption.adopt]
  cases slot <;> cases adoption.prepared <;> cases adoption.retires <;> rfl

theorem Adoption.adopt_definition (adoption : Adoption) (slot : Slot) :
    (adoption.adopt slot).definition = slot.definition := by
  rw [Adoption.adopt]
  cases slot <;> cases adoption.prepared <;> cases adoption.retires <;> rfl

theorem Adoption.adopt_initial (adoption : Adoption) (slot : Slot) :
    (adoption.adopt slot).initial = slot.initial := by
  rw [Adoption.adopt]
  cases slot <;> cases adoption.prepared <;> cases adoption.retires <;> rfl

theorem Adoption.adopt_version (adoption : Adoption) (slot : Slot) :
    (adoption.adopt slot).version = slot.version := by
  rw [Slot.version, Adoption.adopt_definition, Slot.version]

theorem Adoption.adopt_keeps (adoption : Adoption)
    (hkey : slot.key key ≠ adoption.key) (hnormal : slot.key adoption.key = adoption.key) :
    slot.Keeps (adoption.adopt slot) key := by
  obtain ⟨hheld, hheldVersion, hstored⟩ := adoption.adopt_other hkey hnormal
  refine ⟨⟨adoption.adopt_key slot, adoption.adopt_persisted slot, ?_, ?_, ?_⟩, ?_, ?_⟩
  · rw [Adoption.adopt_definition]
  · rw [Adoption.adopt_initial]
    exact id
  · intro _
    exact hheldVersion
  · intro _
    exact hheld
  intro _
  exact hstored

/-- The value a change starts from went through the changes committed before it. -/
theorem SlotSound.base_changes (hsound : SlotSound committed documents slot)
    (hkey : slot.key key = key)
    (habsent : retires = false → slot.persisted = true → slot.held key = none →
      documents key = none) :
    (slot.base key retires).changes =
      ((if retires then none else committed key).getD []) := by
  rw [Slot.base]
  cases retires with
  | true => rfl
  | false =>
    cases hheld : slot.held key with
    | some value =>
      have hkept := hsound.kept key value hheld
      rw [hkey] at hkept
      rw [hkept]
      rfl
    | none =>
      have hnone : committed key = none := by
        cases hpersisted : slot.persisted with
        | true =>
          rw [hsound.documents hpersisted, habsent rfl hpersisted hheld]
          rfl
        | false =>
          have habsent := hsound.absent hpersisted key hheld
          rwa [hkey] at habsent
      rw [hnone]
      rfl

/-- What a sound slot starts a draft from is of its version. -/
theorem SlotSound.base_produced (hsound : SlotSound committed documents slot)
    (hversion : retires = false → slot.heldVersion key = slot.version) :
    (slot.base key retires).Produced slot.version := by
  rw [Slot.base]
  cases retires with
  | true => rfl
  | false =>
    cases hheld : slot.held key with
    | some value =>
      have hproduced := hsound.held key value hheld
      rwa [hversion rfl] at hproduced
    | none => rfl

section

variable (hadoption : AdoptionSound slot adoption)
include hadoption

section

variable (hsound : SlotSound committed documents slot)
include hsound

section

variable (happly : applyWrites (documents adoption.key) adoption.writes = some document)
include happly

/-- A change that creates a document finds none stored. -/
theorem AdoptionSound.absent (hprepared : adoption.prepared = some prepared)
    (hretires : adoption.retires = false) (hpersisted : slot.persisted = true)
    (hheld : slot.held adoption.key = none) : documents adoption.key = none := by
  obtain ⟨definition, was, checkpoint, stored, hstage, -, -, hwas, -⟩ :=
    hadoption.staged hpersisted
  rw [hprepared] at hstage
  obtain ⟨-, hcreates, -⟩ := applyWrites_stage_change hstage happly
  apply hcreates hretires
  have hstored := hsound.stored hpersisted adoption.key
  rw [hheld] at hstored
  rw [hwas hretires]
  exact isNone_iff_eq_none.mp (isSome_eq_false_iff.mp hstored)

/-- The changes of the document a commit adopts are those committed to it. -/
theorem AdoptionSound.commits_eq :
    adoption.commits (committed adoption.key) =
      adoption.prepared.map fun prepared => prepared.value.changes := by
  rw [Adoption.commits]
  cases hprepared : adoption.prepared with
  | none =>
    rw [hadoption.retired hprepared]
    rfl
  | some prepared =>
    obtain ⟨-, hvalue, -⟩ := hadoption.change prepared hprepared
    rw [map_some, hvalue, Value.changes, hsound.base_changes hadoption.key]
    intro hretires hpersisted hheld
    exact hadoption.absent hsound happly hprepared hretires hpersisted hheld

end

/-- The same changes are stored, in a record of the slot's version. -/
theorem AdoptionSound.document_eq (hpersisted : slot.persisted = true)
    (hdocument : ∀ found, documents adoption.key = some found → found.value.Produced found.version)
    (happly : applyWrites (documents adoption.key) adoption.writes = some document) :
    (adoption.prepared.map fun prepared => prepared.value.changes) =
        (document.map fun found => found.value.changes) ∧
      ∀ found, document = some found → found.value.Produced found.version := by
  obtain ⟨definition, was, checkpoint, stored, hstage, -, hretired, -, hcurrent⟩ :=
    hadoption.staged hpersisted
  cases hprepared : adoption.prepared with
  | none =>
    have hretires := hadoption.retired hprepared
    rw [hprepared, hretires] at hstage
    rw [applyWrites_stage_retire hstage (hretired hretires) happly]
    exact ⟨rfl, nofun⟩
  | some prepared =>
    rw [hprepared] at hstage hcurrent
    obtain ⟨hhandle, hvalue, -, hversion⟩ := hadoption.change prepared hprepared
    obtain ⟨-, -, found, rfl, hfound, hcontent⟩ := applyWrites_stage_change hstage happly
    have hslot : found.version = slot.version := by
      rw [hfound, hcurrent rfl]
      rfl
    rcases hcontent with hwhole | ⟨hretires, before, hbefore, hsame, hdelta⟩
    · refine ⟨by rw [map_some, map_some, hwhole], ?_⟩
      intro other hother
      cases hother
      rw [hwhole, hvalue, hslot]
      exact ⟨hhandle, hsound.base_produced hversion⟩
    refine ⟨?_, ?_⟩
    · rw [map_some, map_some, hvalue, hdelta, Value.changes, Value.changes,
        hsound.base_changes hadoption.key, hretires, hsound.documents hpersisted, hbefore]
      · rfl
      intro _ _ hheld
      exact hadoption.absent hsound happly hprepared hretires hpersisted hheld
    intro other hother
    cases hother
    rw [hdelta, hslot]
    refine ⟨hhandle, ?_⟩
    rw [← hslot, hfound, ← hsame]
    exact hdocument before hbefore

end

end

theorem SlotSound.hydrated_initial (hsound : SlotSound committed documents slot)
    {singleton : SingletonSlot} (hdefinition : slot.definition = singleton.definition)
    (hinitial : slot.initial = singleton.initial) (hkind : ∀ key, slot.key key = []) :
    singleton.definition.hydrated = singleton.initial.isSome := by
  cases slot with
  | singleton before =>
    rw [← show before.definition = _ from hdefinition,
      ← show before.initial = _ from hinitial]
    exact (hsound.hydrated before rfl).1
  | keyed before =>
    exact absurd (hkind [0]) (cons_ne_nil 0 [])

/-- Adopting a prepared change keeps the slot sound, with the change committed and its
writes stored. -/
theorem SlotSound.adopt (hsound : SlotSound committed documents slot)
    (hadoption : AdoptionSound slot adoption)
    (hdocument : ∀ found, documents adoption.key = some found → found.value.Produced found.version)
    (happly : applyWrites (documents adoption.key) adoption.writes = some document) :
    SlotSound
      (update committed adoption.key (adoption.commits (committed adoption.key)))
      (update documents adoption.key document) (adoption.adopt slot) := by
  have hcommits := hadoption.commits_eq hsound happly
  refine ⟨?_, ?_, ?_, ?_, ?_, ?_, ?_, ?_⟩
  · intro key value hheld
    by_cases hkey : slot.key key = adoption.key
    · rw [(Adoption.adopt_self hadoption hkey).1] at hheld
      obtain ⟨prepared, hprepared, rfl⟩ := map_eq_some_iff.mp hheld
      rw [Adoption.adopt_heldVersion_self adoption hkey (by rw [hprepared]; rfl)]
      obtain ⟨hhandle, hvalue, -, hversion⟩ := hadoption.change prepared hprepared
      rw [hvalue]
      exact ⟨hhandle, hsound.base_produced hversion⟩
    obtain ⟨hsame, hheldVersion, -⟩ := adoption.adopt_other hkey hadoption.key
    rw [hsame] at hheld
    rw [hheldVersion]
    exact hsound.held key value hheld
  · intro key value hheld
    rw [Adoption.adopt_key]
    by_cases hkey : slot.key key = adoption.key
    · rw [(Adoption.adopt_self hadoption hkey).1] at hheld
      obtain ⟨prepared, hprepared, rfl⟩ := map_eq_some_iff.mp hheld
      rw [hkey, update_self, hcommits, hprepared]
      rfl
    obtain ⟨hsame, -, -⟩ := adoption.adopt_other hkey hadoption.key
    rw [hsame] at hheld
    rw [update_of_ne hkey]
    exact hsound.kept key value hheld
  · intro value hinitial
    rw [Adoption.adopt_initial] at hinitial
    rw [Adoption.adopt_version]
    exact hsound.initial value hinitial
  · intro keyed hkeyed key value hvalue
    rw [Adoption.adopt_version]
    cases slot with
    | singleton singleton =>
      exfalso
      rw [Adoption.adopt] at hkeyed
      cases hprepared : adoption.prepared <;> cases hretires : adoption.retires <;>
        rw [hprepared, hretires] at hkeyed <;> cases hkeyed
    | keyed before =>
      apply hsound.source before rfl key value
      rw [Adoption.adopt] at hkeyed
      cases hprepared : adoption.prepared <;> cases hretires : adoption.retires <;>
        rw [hprepared, hretires] at hkeyed <;> cases hkeyed <;> exact hvalue
  · intro singleton hsingleton
    have hdefinition := adoption.adopt_definition slot
    have hinitial := adoption.adopt_initial slot
    have hheld := (Adoption.adopt_self hadoption hadoption.key).1
    rw [hsingleton] at hdefinition hinitial hheld
    have hbefore := hsound.hydrated_initial hdefinition.symm hinitial.symm (by
      intro key
      rw [← adoption.adopt_key slot, hsingleton]
      rfl)
    refine ⟨hbefore, ?_⟩
    intro hhydrated
    cases hprepared : adoption.prepared with
    | none =>
      rw [hprepared] at hheld
      exact hheld
    | some prepared =>
      -- Nothing is drafted before the first hydration.
      obtain ⟨-, -, hready, -⟩ := hadoption.change prepared hprepared
      rw [← hinitial] at hready
      rw [hbefore] at hhydrated
      exact absurd hready (by rw [Slot.initial, hhydrated]; exact Bool.noConfusion)
  · intro hpersisted key
    rw [Adoption.adopt_persisted] at hpersisted
    by_cases hkey : slot.key key = adoption.key
    · rw [(Adoption.adopt_self hadoption hkey).1, (Adoption.adopt_self hadoption hkey).2]
      cases hprepared : adoption.prepared with
      | none => rfl
      | some prepared =>
        obtain ⟨definition, was, checkpoint, stored, hstage, hstored, -⟩ :=
          hadoption.staged hpersisted
        rw [hprepared] at hstage
        obtain ⟨hsome, -⟩ := applyWrites_stage_change hstage happly
        rw [hstored]
        exact hsome
    obtain ⟨hheld, -, hstored⟩ := adoption.adopt_other hkey hadoption.key
    rw [hheld, hstored]
    exact hsound.stored hpersisted key
  · intro hmemory key hheld
    rw [Adoption.adopt_persisted] at hmemory
    rw [Adoption.adopt_key]
    by_cases hkey : slot.key key = adoption.key
    · rw [(Adoption.adopt_self hadoption hkey).1] at hheld
      rw [hkey, update_self, hcommits, map_eq_none_iff.mp hheld]
      rfl
    obtain ⟨hsame, -, -⟩ := adoption.adopt_other hkey hadoption.key
    rw [hsame] at hheld
    rw [update_of_ne hkey]
    exact hsound.absent hmemory key hheld
  · intro hpersisted key
    rw [Adoption.adopt_persisted] at hpersisted
    by_cases hkey : key = adoption.key
    · subst hkey
      rw [update_self, update_self, hcommits]
      exact (hadoption.document_eq hsound hpersisted hdocument happly).1
    rw [update_of_ne hkey, update_of_ne hkey]
    exact hsound.documents hpersisted key

end Hummin.Documents
