/-
Runs of an object's documents across reloads: what goes wrong is a hydration with a
newer version while a draft or a cold read of the document is underway; every other
run keeps each value under the version it was made at.
-/
import Hummin.DocumentCommits

namespace Hummin.Documents

open List Function

open Option hiding guard

/-- A use of a cold document waits for a slot of its handle's version, whose document is
at that version once it is there. -/
structure PendingSound (slot : Slot) (pending : Pending) : Prop where
  version : slot.version = pending.handle
  heldVersion : slot.heldVersion pending.key = slot.version

/-- What a transaction has staged is sound over the slots and the store. -/
structure TransactionSound (slots : Name → Option Slot)
    (store : Name → Key → Option StoredDocument) (tx : Transaction) : Prop where
  entry : ∀ entry ∈ tx.entries, ∃ slot, slots entry.name = some slot ∧
    EntrySound slot (store entry.name entry.key) entry
  distinct : tx.entries.Pairwise fun first second =>
    (first.name, first.key) ≠ (second.name, second.key)
  loading : ∀ load ∈ tx.loading, ∃ slot, slots load.name = some slot ∧
    PendingSound slot load ∧ slot.persisted = true ∧ ∀ raw, slot.key raw = raw
  queued : ∀ adoptions, tx.queued = some adoptions →
    (∀ adoption ∈ adoptions, ∃ slot, slots adoption.name = some slot ∧
      AdoptionSound slot adoption ∧ (adoption.prepared.isSome = true →
        ∃ entry ∈ tx.entries, entry.name = adoption.name ∧ entry.draft.isSome = true)) ∧
    adoptions.Pairwise fun first second =>
      (first.name, first.key) ≠ (second.name, second.key)

/-- The invariant of a run, the transaction on the line apart. -/
structure Settled (state : State) : Prop where
  slot : ∀ name slot, state.slots name = some slot →
    SlotSound (state.committed name) (state.store name) slot
  undeclared : ∀ name, state.slots name = none → ∀ key, state.committed name key =
    (state.store name key).map fun document => document.value.changes
  document : ∀ name key document, state.store name key = some document →
    document.value.Produced document.version
  seen : ∀ pair ∈ state.seen, pair.2.Produced pair.1
  gets : ∀ read ∈ state.gets, ∃ slot, state.slots read.name = some slot ∧
    PendingSound slot read

structure Sound (state : State) : Prop extends Settled state where
  line : ∀ tx, state.line = some tx → TransactionSound state.slots state.store tx

variable {slot : Slot}

theorem PendingSound.keep {next : Slot} {pending : Pending}
    (hpending : PendingSound slot pending) (hstays : slot.Stays next pending.key) :
    PendingSound next pending := by
  refine ⟨hstays.version.trans hpending.version, ?_⟩
  rw [hstays.heldVersion hpending.heldVersion, hpending.heldVersion, hstays.version]

variable {state next : State} {tx : Transaction} {name : Name} {key : Key}

/-! ### One slot at a time -/

theorem State.setSlot_self (state : State) (name : Name) (slot : Slot) :
    (state.setSlot name slot).slots name = some slot :=
  update_self _ _ _

theorem State.setSlot_other (state : State) {name other : Name} (hother : other ≠ name)
    (slot : Slot) : (state.setSlot name slot).slots other = state.slots other :=
  update_of_ne hother _ _

variable {slots : Name → Option Slot} {changed : Slot}

/-- What holds of every slot holds after one of them changed, when it carries over. -/
theorem exists_slot_update (hslot : slots name = some slot) {Holds : Slot → Prop} {at_ : Name}
    (hbefore : ∃ found, slots at_ = some found ∧ Holds found)
    (hchanged : at_ = name → Holds slot → Holds changed) :
    ∃ found, update slots name (some changed) at_ = some found ∧ Holds found := by
  obtain ⟨found, hfound, hholds⟩ := hbefore
  by_cases hat : at_ = name
  · subst hat
    cases hslot.symm.trans hfound
    exact ⟨changed, update_self _ _ _, hchanged rfl hholds⟩
  · exact ⟨found, (update_of_ne hat _ _).trans hfound, hholds⟩

/-- A slot changed in place, where the transaction's parts on it stay sound. -/
theorem TransactionSound.setSlot
    {store : Name → Key → Option StoredDocument} (htx : TransactionSound slots store tx)
    (hslot : slots name = some slot) (hentry : ∀ entry ∈ tx.entries, entry.name = name →
      EntrySound slot (store name entry.key) entry →
      EntrySound changed (store name entry.key) entry)
    (hstays : (∃ load ∈ tx.loading, load.name = name) → ∀ key, slot.Stays changed key)
    (hadoption : ∀ adoptions, tx.queued = some adoptions → ∀ adoption ∈ adoptions,
      adoption.name = name → AdoptionSound slot adoption → (adoption.prepared.isSome = true →
        ∃ entry ∈ tx.entries, entry.name = name ∧ entry.draft.isSome = true) →
      AdoptionSound changed adoption) :
    TransactionSound (update slots name (some changed)) store tx := by
  refine ⟨?_, htx.distinct, ?_, ?_⟩
  · intro entry hmem
    apply exists_slot_update hslot (htx.entry entry hmem)
    intro hname hsound
    rw [hname] at hsound ⊢
    exact hentry entry hmem hname hsound
  · intro load hmem
    apply exists_slot_update hslot (htx.loading load hmem)
    rintro hname ⟨hpending, hpersisted, hkeyed⟩
    have hstays := hstays ⟨load, hmem, hname⟩
    refine ⟨hpending.keep (hstays _), (hstays []).persisted.trans hpersisted, ?_⟩
    intro raw
    rw [(hstays []).address, hkeyed]
  intro adoptions hqueued
  obtain ⟨hadoptions, hdistinct⟩ := htx.queued adoptions hqueued
  refine ⟨?_, hdistinct⟩
  intro adoption hmem
  apply exists_slot_update hslot (hadoptions adoption hmem)
  rintro hname ⟨hsound, hdrafted⟩
  refine ⟨hadoption adoptions hqueued adoption hmem hname hsound ?_, hdrafted⟩
  rw [← hname]
  exact hdrafted

/-- A slot whose documents stay as they are. -/
theorem TransactionSound.keeps
    {store : Name → Key → Option StoredDocument} (htx : TransactionSound slots store tx)
    (hslot : slots name = some slot) (hkeeps : ∀ key, slot.Keeps changed key) :
    TransactionSound (update slots name (some changed)) store tx := by
  apply htx.setSlot hslot
  · intro entry _ _ hsound
    exact hsound.keeps (hkeeps entry.key)
  · intro _ key
    exact (hkeeps key).toStays
  intro adoptions _ adoption _ _ hsound _
  exact hsound.keep (hkeeps adoption.key)

/-- One slot, and what is stored of its documents, changed. -/
theorem Settled.change (hsettled : Settled state)
    {store : Name → Key → Option StoredDocument}
    {committed : Name → Key → Option (List Nat)}
    (hstore : ∀ other, other ≠ name → store other = state.store other)
    (hcommitted : ∀ other, other ≠ name → committed other = state.committed other)
    (hchanged : SlotSound (committed name) (store name) changed)
    (hdocument : ∀ key document, store name key = some document →
      document.value.Produced document.version)
    (hgets : ∀ read ∈ state.gets, ∃ slot, (state.setSlot name changed).slots read.name = some slot ∧
      PendingSound slot read) :
    Settled { state.setSlot name changed with store := store, committed := committed } := by
  refine ⟨?_, ?_, ?_, hsettled.seen, hgets⟩
  · intro other found hfound
    by_cases hother : other = name
    · subst hother
      cases (State.setSlot_self state other changed).symm.trans hfound
      exact hchanged
    dsimp only
    rw [hstore other hother, hcommitted other hother]
    exact hsettled.slot other found ((State.setSlot_other state hother changed).symm.trans hfound)
  · intro other hnone
    by_cases hother : other = name
    · subst hother
      cases (State.setSlot_self state other changed).symm.trans hnone
    dsimp only
    rw [hstore other hother, hcommitted other hother]
    exact hsettled.undeclared other ((State.setSlot_other state hother changed).symm.trans hnone)
  intro other key document hfound
  by_cases hother : other = name
  · subst hother
    exact hdocument key document hfound
  dsimp only at hfound
  rw [hstore other hother] at hfound
  exact hsettled.document other key document hfound

/-- The slots and the reads underway after one slot changed. -/
theorem Settled.setSlot (hsettled : Settled state) (hslot : state.slots name = some slot)
    (hchanged : SlotSound (state.committed name) (state.store name) changed)
    (hstays : (∃ read ∈ state.gets, read.name = name) → ∀ key, slot.Stays changed key) :
    Settled (state.setSlot name changed) := by
  refine hsettled.change (fun _ _ => rfl) (fun _ _ => rfl) hchanged (hsettled.document name) ?_
  intro read hread
  apply exists_slot_update hslot (hsettled.gets read hread)
  intro hname hpending
  exact hpending.keep (hstays ⟨read, hread, hname⟩ _)

theorem Sound.keeps (hsound : Sound state) (hslot : state.slots name = some slot)
    (hchanged : SlotSound (state.committed name) (state.store name) changed)
    (hkeeps : ∀ key, slot.Keeps changed key) : Sound (state.setSlot name changed) := by
  refine ⟨hsound.toSettled.setSlot hslot hchanged fun _ key => (hkeeps key).toStays, ?_⟩
  intro tx htx
  exact (hsound.line tx htx).keeps hslot hkeeps

variable {handle : Version}

section

variable (hsettled : Settled state)
include hsettled

/-- What a handle read or drafted is of its version. -/
theorem Settled.see {value : Value} (hvalue : value.Produced handle) :
    ∀ pair ∈ state.seen ++ [(handle, value)], pair.2.Produced pair.1 := by
  exact forall_mem_append.mpr ⟨hsettled.seen, forall_mem_singleton.mpr hvalue⟩

theorem Settled.setLine (line : Option Transaction) :
    Settled { state with line := line } :=
  ⟨hsettled.slot, hsettled.undeclared, hsettled.document, hsettled.seen, hsettled.gets⟩

theorem Settled.onLine
    (htx : TransactionSound state.slots state.store tx) :
    Sound { state with line := some tx } := by
  refine ⟨hsettled.setLine _, ?_⟩
  intro other hother
  cases hother
  exact htx

theorem Settled.free : Sound { state with line := none } :=
  ⟨hsettled.setLine _, nofun⟩

end

/-! ### Drafts -/

variable {entry : Entry}

theorem Transaction.mem_setEntry {other : Entry} :
    other ∈ (tx.setEntry entry).entries ↔ other = entry ∨
      (other ∈ tx.entries ∧ (other.name, other.key) ≠ (entry.name, entry.key)) := by
  simp only [Transaction.setEntry, mem_cons, mem_filter, ne_eq, Prod.mk.injEq,
    Bool.not_eq_true', Bool.and_eq_false_imp, beq_iff_eq, beq_eq_false_iff_ne, not_and]

theorem TransactionSound.setEntry
    {store : Name → Key → Option StoredDocument} (htx : TransactionSound slots store tx)
    (hqueued : tx.queued = none) (hslot : slots entry.name = some slot)
    (hentry : EntrySound slot (store entry.name entry.key) entry) :
    TransactionSound slots store (tx.setEntry entry) := by
  refine ⟨?_, ?_, htx.loading, ?_⟩
  · intro other hother
    rcases Transaction.mem_setEntry.mp hother with rfl | ⟨hmem, -⟩
    · exact ⟨slot, hslot, hentry⟩
    · exact htx.entry other hmem
  · refine pairwise_cons.mpr ⟨?_, htx.distinct.filter _⟩
    intro other hother
    have hmem : other ∈ (tx.setEntry entry).entries := mem_cons_of_mem entry hother
    rcases Transaction.mem_setEntry.mp hmem with rfl | ⟨-, hne⟩
    · simp at hother
    · exact hne.symm
  intro adoptions hadoptions
  rw [Transaction.setEntry, hqueued] at hadoptions
  cases hadoptions

/-- The entry a transaction uses for a document is sound, made now or before. -/
theorem TransactionSound.entry_sound
    {store : Name → Key → Option StoredDocument} (htx : TransactionSound slots store tx)
    (hslot : slots name = some slot) (hkey : slot.key key = key) :
    (tx.entry name key).name = name ∧ (tx.entry name key).key = key ∧
      EntrySound slot (store name key) (tx.entry name key) := by
  rw [Transaction.entry]
  cases hfound : tx.entries.find? fun entry => entry.name == name && entry.key == key with
  | none =>
    refine ⟨rfl, rfl, hkey, ?_, ?_, ?_⟩
    · exact nofun
    · exact nofun
    · exact nofun
  | some entry =>
    have hmem := mem_of_find?_eq_some hfound
    have hmatch := find?_some hfound
    simp only [Bool.and_eq_true, beq_iff_eq] at hmatch
    obtain ⟨rfl, rfl⟩ := hmatch
    obtain ⟨found, hslot', hsound⟩ := htx.entry entry hmem
    cases hslot.symm.trans hslot'
    exact ⟨rfl, rfl, hsound⟩

variable {committed : Key → Option (List Nat)} {documents : Key → Option StoredDocument}
    {document : Option StoredDocument}

/-- What an entry drafted is of the slot's version. -/
theorem EntrySound.base_produced (hentry : EntrySound slot document entry)
    (hslot : SlotSound committed documents slot) {draft : Draft}
    (hdraft : entry.draft = some draft) : draft.base.Produced slot.version := by
  obtain ⟨-, hbase, -⟩ := hentry.draft draft hdraft
  rw [hbase]
  apply hslot.base_produced
  intro hretire
  exact (hentry.current (by rw [hdraft]; rfl) hretire).1

/-- A draft starts from the document as the slot has it. -/
theorem SlotSound.start (hslot : SlotSound committed documents slot) {retire : Bool} {base : Value}
    (hstart : slot.start key retire = some base) :
    base = slot.base key retire ∧ slot.initial.isSome = true := by
  rw [Slot.start] at hstart
  rw [Slot.base]
  split at hstart
  next value hheld =>
    cases hstart
    rw [hheld]
    refine ⟨rfl, ?_⟩
    cases slot with
    | keyed keyed => rfl
    | singleton singleton =>
      obtain ⟨hinitial, htracker⟩ := hslot.hydrated singleton rfl
      rw [Slot.initial, ← hinitial]
      by_contra hfalse
      cases retire with
      | true => cases hheld
      | false =>
        simp only [Bool.false_eq_true, ↓reduceIte, Slot.held] at hheld
        rw [htracker (Bool.not_eq_true _ ▸ hfalse)] at hheld
        cases hheld
  next hheld =>
    rw [hheld, hslot.initial base hstart, hstart]
    exact ⟨rfl, rfl⟩

/-- A draft begins, or is used again. -/
theorem Settled.begin (hsettled : Settled state)
    (htx : TransactionSound state.slots state.store tx) (hqueued : tx.queued = none)
    (hslot : state.slots entry.name = some slot)
    (hentry : EntrySound slot (state.store entry.name entry.key) entry)
    (hfresh : entry.retire = false → slot.persisted = true → (∀ raw, slot.key raw = raw) →
      slot.held entry.key = none → state.store entry.name entry.key = none)
    (hversion : slot.version = handle)
    (hbegin : begin state tx slot entry handle = some next) : Sound next := by
  have hslotSound := hsettled.slot _ slot hslot
  cases hdraft : entry.draft with
  | some draft =>
    rw [Documents.begin, hdraft] at hbegin
    cases hbegin
    have hproduced := hentry.base_produced hslotSound hdraft
    rw [hversion] at hproduced
    refine ⟨⟨hsettled.slot, hsettled.undeclared, hsettled.document,
      hsettled.see hproduced, hsettled.gets⟩, ?_⟩
    intro other hother
    cases hother
    exact htx
  | none =>
    rw [Documents.begin, hdraft] at hbegin
    -- The document in use: a retired one is not looked at.
    generalize hused : (if entry.retire = true then slot else slot.access entry.key) = used
      at hbegin
    obtain ⟨base, hstart, rfl⟩ := map_eq_some_iff.mp hbegin
    have hkeeps : ∀ key, slot.Keeps used key := by
      intro key
      subst hused
      split
      · exact Slot.Keeps.refl slot key
      · exact slot.access_keeps entry.key key
    have husedSound : SlotSound (state.committed entry.name) (state.store entry.name) used := by
      subst hused
      split
      · exact hslotSound
      · exact hslotSound.access entry.key
    have hheldVersion : entry.retire = false → used.heldVersion entry.key = used.version := by
      intro hretire
      rw [hretire] at hused
      subst hused
      exact (slot.heldVersion_access entry.key).trans (slot.access_version entry.key).symm
    have hheld : entry.retire = false → used.held entry.key = none →
        slot.held entry.key = none := by
      intro hretire hnone
      rw [hretire] at hused
      subst hused
      exact slot.held_of_access hnone
    obtain ⟨hbase, hready⟩ := husedSound.start hstart
    have hhandle : used.version = handle := (hkeeps []).version.trans hversion
    have hdrafted : EntrySound used (state.store entry.name entry.key)
        { entry with draft := some ⟨handle, base⟩ } := by
      refine ⟨((hkeeps []).address _).trans hentry.key, hentry.found, ?_, ?_⟩
      · intro draft hsome
        cases hsome
        exact ⟨hhandle.symm, hbase, hready⟩
      intro _ hretire
      refine ⟨hheldVersion hretire, ?_⟩
      intro hpersisted hkeyed hnone
      apply hfresh hretire ((hkeeps []).persisted.symm.trans hpersisted)
      · intro raw
        rw [← (hkeeps []).address, hkeyed]
      · exact hheld hretire hnone
    have hproduced : base.Produced handle := by
      rw [← hhandle]
      exact hdrafted.base_produced husedSound rfl
    have hnext := hsettled.setSlot hslot husedSound fun _ key => (hkeeps key).toStays
    refine ⟨⟨hnext.slot, hnext.undeclared, hnext.document, hnext.see hproduced, hnext.gets⟩, ?_⟩
    intro other hother
    cases hother
    exact (htx.keeps hslot hkeeps).setEntry hqueued (update_self _ _ _) hdrafted

/-- A document that is not cold is in memory, if it is a keyed persisted one. -/
theorem Slot.held_of_not_cold (hcold : slot.cold key = false)
    (hpersisted : slot.persisted = true) (hkeyed : ∀ raw, slot.key raw = raw) :
    slot.held key ≠ none := by
  cases slot with
  | singleton singleton => exact absurd (hkeyed [0]) (cons_ne_nil 0 []).symm
  | keyed keyed =>
    have hpersisted : keyed.persisted = true := hpersisted
    rw [Slot.cold, hpersisted, Bool.true_and] at hcold
    rw [Slot.held]
    intro hnone
    rw [map_eq_none_iff.mp hnone] at hcold
    cases hcold

theorem Slot.key_idem (slot : Slot) (raw : Key) : slot.key (slot.key raw) = slot.key raw := by
  cases slot <;> rfl

theorem guard_bind_eq_some {α : Type} {condition : Prop} [Decidable condition]
    {rest : Unit → Option α} {result : α}
    (hrun : (guard condition >>= rest) = some result) : condition ∧ rest () = some result := by
  rw [guard] at hrun
  split at hrun
  next hcondition => exact ⟨hcondition, hrun⟩
  · cases hrun

theorem SlotDefinition.version_of_assert
    (hassert : slot.definition.assertVersion handle = true) : slot.version = handle := by
  rw [SlotDefinition.assertVersion, beq_iff_eq] at hassert
  exact hassert.symm

theorem Sound.draft (hsound : Sound state) {raw : Key}
    (hdraft : draft state name raw handle = some next) : Sound next := by
  rw [Documents.draft] at hdraft
  obtain ⟨slot, hslot, hdraft⟩ := bind_eq_some_iff.mp hdraft
  obtain ⟨tx, hline, hdraft⟩ := bind_eq_some_iff.mp hdraft
  obtain ⟨hguard, hdraft⟩ := guard_bind_eq_some hdraft
  rw [Bool.and_eq_true, isNone_iff_eq_none] at hguard
  obtain ⟨hassert, hqueued⟩ := hguard
  have hversion := SlotDefinition.version_of_assert hassert
  have htx := hsound.line tx hline
  obtain ⟨hname, hkey, hentry⟩ := htx.entry_sound hslot (slot.key_idem raw)
  dsimp only at hdraft
  generalize hused : tx.entry name (slot.key raw) = entry at hname hkey hentry hdraft
  split at hdraft
  next hwarm =>
    apply hsound.toSettled.begin htx hqueued (hname ▸ hslot) (hname ▸ hkey ▸ hentry) _
      hversion hdraft
    intro hretire hpersisted hkeyed hnone
    rw [hname, hkey]
    simp only [Bool.or_eq_true, Bool.not_eq_true', hretire, Bool.false_eq_true, or_false] at hwarm
    rcases hwarm with hdrafted | hwarm
    · exact (hentry.current hdrafted hretire).2 hpersisted hkeyed hnone
    rw [hkey] at hnone
    exact absurd hnone (Slot.held_of_not_cold hwarm hpersisted hkeyed)
  rename_i hcold
  cases hdraft
  simp only [Bool.or_eq_true, Bool.not_eq_true', not_or, Bool.not_eq_false] at hcold
  apply hsound.toSettled.onLine
  refine ⟨htx.entry, htx.distinct, ?_, htx.queued⟩
  refine forall_mem_cons.mpr ⟨?_, htx.loading⟩
  refine ⟨slot, hslot, ?_⟩
  have hcold := hcold.2
  cases slot with
  | singleton singleton => cases hcold
  | keyed keyed =>
    rw [Slot.cold, Bool.and_eq_true, isNone_iff_eq_none] at hcold
    refine ⟨⟨hversion, ?_⟩, hcold.1, fun _ => rfl⟩
    rw [Slot.heldVersion]
    rw [hcold.2]
    rfl

variable {keyed : KeyedSlot}

/-- What the store had at a key is in memory once it is loaded. -/
theorem KeyedSlot.load_held {loaded : KeyedSlot} (hload : keyed.load key document = some loaded)
    (hnone : (Slot.keyed loaded).held key = none) : document = none := by
  rw [KeyedSlot.load.eq_def] at hload
  have hresident := map_eq_none_iff.mp hnone
  split at hload
  next resident hsome =>
    cases hload
    rw [hsome] at hresident
    cases hresident
  · rfl
  obtain ⟨⟨value, stored⟩, -, rfl⟩ := map_eq_some_iff.mp hload
  dsimp only at hresident
  rw [update_self] at hresident
  cases hresident

theorem Sound.draftLoaded (hsound : Sound state) {load : Pending}
    (hloaded : draftLoaded state load = some next) : Sound next := by
  rw [Documents.draftLoaded] at hloaded
  obtain ⟨slot, hslot, hloaded⟩ := bind_eq_some_iff.mp hloaded
  obtain ⟨tx, hline, hloaded⟩ := bind_eq_some_iff.mp hloaded
  obtain ⟨hguard, hloaded⟩ := guard_bind_eq_some hloaded
  rw [Bool.and_eq_true, isNone_iff_eq_none, decide_eq_true_eq] at hguard
  obtain ⟨hmem, hqueued⟩ := hguard
  obtain ⟨found, hinstall, hbegin⟩ := bind_eq_some_iff.mp hloaded
  have htx := hsound.line tx hline
  obtain ⟨other, hother, hpending, hpersisted, hkeyed⟩ := htx.loading load hmem
  cases hslot.symm.trans hother
  cases slot with
  | singleton singleton => exact absurd (hkeyed [0]) (cons_ne_nil 0 []).symm
  | keyed keyed =>
    obtain ⟨loaded, hload, rfl⟩ := map_eq_some_iff.mp hinstall
    have hstays := KeyedSlot.load_stays hload
    have hslotSound := (hsound.slot load.name _ hslot).load_keyed hpersisted
      (hsound.document load.name load.key) hload
    have hkeep : ∀ entry, entry.name = load.name →
        EntrySound (.keyed keyed) (state.store load.name entry.key) entry →
        EntrySound (.keyed loaded) (state.store load.name entry.key) entry := by
      intro entry _ hentry
      apply hentry.keep (hstays entry.key)
      intro hdraft hretire
      have hcurrent := hentry.current hdraft hretire
      apply (KeyedSlot.load_keeps hload entry.key ?_).held hcurrent.1
      by_cases hkey : entry.key = load.key
      · rw [hkey] at hcurrent
        cases hresident : keyed.residents load.key with
        | some resident => exact .inr (.inr rfl)
        | none =>
          refine .inr (.inl (hcurrent.2 hpersisted hkeyed ?_))
          rw [Slot.held, hresident]
          rfl
      · exact .inl hkey
    have hsettled := hsound.toSettled.setSlot hslot hslotSound fun _ key => hstays key
    have herased : TransactionSound (state.setSlot load.name (.keyed loaded)).slots
        state.store { tx with loading := tx.loading.erase load } := by
      have hset := htx.setSlot hslot (fun entry _ hname hentry => hkeep entry hname hentry)
        (fun _ key => hstays key) (by
          intro adoptions hadoptions
          rw [hqueued] at hadoptions
          cases hadoptions)
      refine ⟨hset.entry, hset.distinct, ?_, ?_⟩
      · intro other hother
        exact hset.loading other (mem_of_mem_erase hother)
      intro adoptions hadoptions
      have hadoptions : tx.queued = some adoptions := hadoptions
      rw [hqueued] at hadoptions
      cases hadoptions
    obtain ⟨hname, hkey, hentry⟩ := htx.entry_sound hslot (hkeyed load.key)
    generalize hused : tx.entry load.name load.key = entry at hname hkey hentry hbegin
    have hentry := hkeep entry hname (hkey ▸ hentry)
    refine hsettled.begin herased hqueued ?_ ?_ ?_ ((hstays []).version.trans
      hpending.version) hbegin
    · rw [hname, State.setSlot_self]
    · rw [hname]
      exact hentry
    intro _ _ _ hnone
    rw [hkey] at hnone
    rw [hname, hkey]
    exact KeyedSlot.load_held hload hnone

theorem Sound.retire (hsound : Sound state) {raw : Key}
    (hretire : retire state name raw handle = some next) : Sound next := by
  rw [Documents.retire] at hretire
  obtain ⟨slot, hslot, hretire⟩ := bind_eq_some_iff.mp hretire
  obtain ⟨tx, hline, hretire⟩ := bind_eq_some_iff.mp hretire
  obtain ⟨hguard, hretire⟩ := guard_bind_eq_some hretire
  rw [Bool.and_eq_true, isNone_iff_eq_none] at hguard
  have htx := hsound.line tx hline
  obtain ⟨hname, hkey, hentry⟩ := htx.entry_sound hslot (slot.key_idem raw)
  obtain ⟨found, -, hretire⟩ := bind_eq_some_iff.mp hretire
  cases hretire
  apply hsound.toSettled.onLine
  have hretired : EntrySound slot (state.store (tx.entry name (slot.key raw)).name
      (tx.entry name (slot.key raw)).key) { tx.entry name (slot.key raw) with
        draft := none, retire := true, found := found } := by
    refine ⟨hentry.key, fun _ => rfl, ?_, ?_⟩
    · exact nofun
    · exact nofun
  refine htx.setEntry hguard.2 ?_ hretired
  rw [hname]
  exact hslot

/-! ### Commits -/

theorem Slot.heldVersion_of_absent (hnone : slot.held key = none) :
    slot.heldVersion key = slot.version := by
  cases slot with
  | singleton singleton => rfl
  | keyed keyed =>
    rw [Slot.heldVersion, map_eq_none_iff.mp hnone]
    rfl

variable {adoption : Adoption}

/-- What a commit prepares of a sound entry. -/
theorem EntrySound.prepare (hentry : EntrySound slot document entry)
    (hslot : SlotSound committed documents slot) {change : Option Nat} {checkpoint : Bool}
    (hprepare : prepare slot entry change checkpoint = some adoption) :
    adoption.name = entry.name ∧ adoption.key = entry.key ∧ AdoptionSound slot adoption ∧
      (adoption.prepared.isSome = true → entry.draft.isSome = true) := by
  rw [Documents.prepare] at hprepare
  generalize hretires : entry.retires slot = retires at hprepare
  rw [Entry.retires] at hretires
  -- The document is retired, or it is the one the draft was begun on.
  have hkept : retires = false → entry.retire = false ∨
      (slot.held entry.key = none ∧ entry.found = none) := by
    intro hfalse
    rw [hfalse, Bool.and_eq_false_iff, Bool.or_eq_false_iff] at hretires
    rcases hretires with hretire | ⟨hheld, hfound⟩
    · exact .inl hretire
    exact .inr ⟨isNone_iff_eq_none.mp (isSome_eq_false_iff.mp hheld),
      isNone_iff_eq_none.mp (isSome_eq_false_iff.mp hfound)⟩
  have hretired : retires = true → entry.retire = true := by
    intro htrue
    rw [htrue, Bool.and_eq_true] at hretires
    exact hretires.1
  have hbase : slot.base entry.key entry.retire = slot.base entry.key retires := by
    cases hretires' : retires with
    | true => rw [hretired hretires']
    | false =>
      rcases hkept hretires' with hretire | ⟨hheld, -⟩
      · rw [hretire]
      rw [Slot.base, Slot.base, hheld]
      split <;> rfl
  have hchange : ∀ made, entry.prepared change = some made → entry.draft.isSome = true ∧
      made.edit.handle = slot.version ∧
      made.value = .drafted made.edit (slot.base entry.key retires) ∧
      slot.initial.isSome = true ∧
      (retires = false → slot.heldVersion entry.key = slot.version) := by
    intro made hmade
    obtain ⟨draft, hdraft, hmade⟩ := bind_eq_some_iff.mp hmade
    obtain ⟨number, -, hmade⟩ := bind_eq_some_iff.mp hmade
    cases hmade
    obtain ⟨hhandle, hbaseEq, hinitial⟩ := hentry.draft draft hdraft
    refine ⟨by rw [hdraft]; rfl, hhandle, ?_, hinitial, ?_⟩
    · rw [hbaseEq, hbase]
    intro hfalse
    rcases hkept hfalse with hretire | ⟨hheld, -⟩
    · exact (hentry.current (by rw [hdraft]; rfl) hretire).1
    · exact Slot.heldVersion_of_absent hheld
  split at hprepare
  · cases hprepare
  rename_i hsomething
  have hnothing : entry.prepared change = none → retires = true := by
    intro hnone
    simpa [hnone] using hsomething
  split at hprepare
  next hpersisted =>
    cases hprepare
    refine ⟨rfl, rfl, ⟨hentry.key, hnothing, ?_, fun made hmade => (hchange made hmade).2,
      ?_⟩, ?_⟩
    · intro hmemory
      rw [hpersisted] at hmemory
      cases hmemory
    · intro _
      refine ⟨_, _, checkpoint, _, rfl, rfl, ?_, ?_, fun _ => rfl⟩
      · intro htrue
        have htrue : retires = true := htrue
        rw [htrue, Bool.and_eq_true, Bool.or_eq_true, ← hslot.stored hpersisted] at hretires
        rw [isSome_or, Bool.or_eq_true]
        exact hretires.2
      intro hfalse
      have hfound : entry.found = none := by
        rcases hkept hfalse with hretire | ⟨-, hfound⟩
        · by_contra hsome
          have hretire' := hentry.found (isSome_iff_ne_none.mpr hsome)
          rw [hretire] at hretire'
          cases hretire'
        · exact hfound
      rw [hfound, or_none]
    intro hsome
    obtain ⟨made, hmade⟩ := isSome_iff_exists.mp hsome
    exact (hchange made hmade).1
  next hmemory =>
    cases hprepare
    refine ⟨rfl, rfl, ⟨hentry.key, hnothing, fun _ => ⟨rfl, rfl⟩,
      fun made hmade => (hchange made hmade).2, ?_⟩, ?_⟩
    · intro hpersisted
      exact absurd hpersisted hmemory
    intro hsome
    obtain ⟨made, hmade⟩ := isSome_iff_exists.mp hsome
    exact (hchange made hmade).1

/-- The adoptions a commit makes of a transaction's entries. -/
theorem Sound.prepareAll (hsound : Sound state) (hline : state.line = some tx)
    (changes : Name → Key → Option Nat) (checkpoints : Name → Key → Bool) :
    (∀ adoption ∈ prepareAll state changes checkpoints tx.entries,
      ∃ slot, state.slots adoption.name = some slot ∧ AdoptionSound slot adoption ∧
        (adoption.prepared.isSome = true →
          ∃ entry ∈ tx.entries, entry.name = adoption.name ∧ entry.draft.isSome = true)) ∧
      (prepareAll state changes checkpoints tx.entries).Pairwise fun first second =>
        (first.name, first.key) ≠ (second.name, second.key) := by
  have htx := hsound.line tx hline
  have hmade : ∀ entry ∈ tx.entries, ∀ adoption,
      ((state.slots entry.name).bind fun slot => prepare slot entry
        (changes entry.name entry.key) (checkpoints entry.name entry.key)) = some adoption →
      adoption.name = entry.name ∧ adoption.key = entry.key ∧
        ∃ slot, state.slots entry.name = some slot ∧ AdoptionSound slot adoption ∧
          (adoption.prepared.isSome = true → entry.draft.isSome = true) := by
    intro entry hentry adoption hadoption
    obtain ⟨slot, hslot, hprepare⟩ := bind_eq_some_iff.mp hadoption
    obtain ⟨other, hother, hsoundEntry⟩ := htx.entry entry hentry
    cases hslot.symm.trans hother
    obtain ⟨hname, hkey, hsoundAdoption, hdraft⟩ :=
      hsoundEntry.prepare (hsound.slot _ slot hslot) hprepare
    exact ⟨hname, hkey, slot, hslot, hsoundAdoption, hdraft⟩
  constructor
  · intro adoption hadoption
    obtain ⟨entry, hentry, hprepare⟩ := mem_filterMap.mp hadoption
    obtain ⟨hname, -, slot, hslot, hsoundAdoption, hdraft⟩ := hmade entry hentry adoption hprepare
    refine ⟨slot, hname ▸ hslot, hsoundAdoption, ?_⟩
    intro hprepared
    exact ⟨entry, hentry, hname.symm, hdraft hprepared⟩
  refine pairwise_filterMap.mpr (htx.distinct.imp_of_mem ?_)
  intro first second hfirst hsecond hne one hone two htwo
  obtain ⟨hname, hkey, -⟩ := hmade first hfirst one hone
  obtain ⟨hname', hkey', -⟩ := hmade second hsecond two htwo
  rw [hname, hkey, hname', hkey']
  exact hne

theorem Adoption.adopt_stays (adoption : Adoption)
    (hadoption : AdoptionSound slot adoption) (key : Key) :
    slot.Stays (adoption.adopt slot) key := by
  refine ⟨adoption.adopt_key slot, adoption.adopt_persisted slot, ?_, ?_, ?_⟩
  · rw [Adoption.adopt_definition]
  · rw [Adoption.adopt_initial]
    exact id
  intro hversion
  by_cases hkey : slot.key key = adoption.key
  · rw [hversion]
    cases hprepared : adoption.prepared with
    | some prepared => exact adoption.adopt_heldVersion_self hkey (by rw [hprepared]; rfl)
    | none =>
      have hheld := (Adoption.adopt_self hadoption hkey).1
      rw [hprepared] at hheld
      rw [Slot.heldVersion_of_absent hheld, Adoption.adopt_version]
  · exact (adoption.adopt_other hkey hadoption.key).2.1

theorem setAt_self {α : Type} (at_ : Name → Key → α) (name : Name) (key : Key) (value : α) :
    setAt at_ name key value name = update (at_ name) key value :=
  update_self _ _ _

theorem setAt_other {α : Type} (at_ : Name → Key → α) {name other : Name}
    (hother : other ≠ name) (key : Key) (value : α) : setAt at_ name key value other = at_ other :=
  update_of_ne hother _ _

theorem adoptOne_eq_some
    (hadopt : adoptOne state adoption = some next) :
    ∃ slot document, state.slots adoption.name = some slot ∧
      applyWrites (state.store adoption.name adoption.key) adoption.writes = some document ∧
      next = { state.setSlot adoption.name (adoption.adopt slot) with
        store := setAt state.store adoption.name adoption.key document
        committed := setAt state.committed adoption.name adoption.key
          (adoption.commits (state.committed adoption.name adoption.key)) } := by
  rw [adoptOne] at hadopt
  obtain ⟨slot, hslot, hadopt⟩ := bind_eq_some_iff.mp hadopt
  obtain ⟨document, hdocument, hadopt⟩ := bind_eq_some_iff.mp hadopt
  exact ⟨slot, document, hslot, hdocument, (some.inj hadopt).symm⟩

theorem Settled.adoptOne (hsettled : Settled state)
    (hslot : state.slots adoption.name = some slot) (hadoption : AdoptionSound slot adoption)
    (hadopt : adoptOne state adoption = some next) : Settled next := by
  obtain ⟨found, document, hfound, happly, rfl⟩ := adoptOne_eq_some hadopt
  cases hslot.symm.trans hfound
  have hslotSound := hsettled.slot adoption.name slot hslot
  have hdocument := hsettled.document adoption.name adoption.key
  refine hsettled.change (fun _ hother => setAt_other _ hother _ _)
    (fun _ hother => setAt_other _ hother _ _) ?_ ?_ ?_
  · rw [setAt_self, setAt_self]
    exact hslotSound.adopt hadoption hdocument happly
  · intro key stored hstored
    rw [setAt_self] at hstored
    by_cases hkey : key = adoption.key
    · subst hkey
      rw [update_self] at hstored
      cases hpersisted : slot.persisted with
      | true =>
        exact (hadoption.document_eq hslotSound hpersisted hdocument happly).2 stored hstored
      | false =>
        rw [(hadoption.memory hpersisted).1] at happly
        exact hdocument stored ((some.inj happly).trans hstored)
    rw [update_of_ne hkey] at hstored
    exact hsettled.document _ key stored hstored
  intro read hread
  apply exists_slot_update hslot (hsettled.gets read hread)
  intro _ hpending
  exact hpending.keep (adoption.adopt_stays hadoption _)

theorem Settled.adoptAll (hsettled : Settled state) {adoptions : List Adoption}
    (hadoptions : ∀ adoption ∈ adoptions, ∃ slot, state.slots adoption.name = some slot ∧
      AdoptionSound slot adoption)
    (hdistinct : adoptions.Pairwise fun first second =>
      (first.name, first.key) ≠ (second.name, second.key))
    (hadopt : adoptAll state adoptions = some next) : Settled next := by
  induction adoptions generalizing state with
  | nil =>
    cases hadopt
    exact hsettled
  | cons adoption rest ih =>
    obtain ⟨middle, hone, hrest⟩ := bind_eq_some_iff.mp hadopt
    obtain ⟨slot, hslot, hadoption⟩ := hadoptions adoption mem_cons_self
    obtain ⟨hne, hdistinct⟩ := pairwise_cons.mp hdistinct
    refine ih (hsettled.adoptOne hslot hadoption hone) ?_ hdistinct hrest
    intro other hother
    obtain ⟨found, document, hfound, -, rfl⟩ := adoptOne_eq_some hone
    cases hslot.symm.trans hfound
    apply exists_slot_update hslot (hadoptions other (mem_cons_of_mem _ hother))
     
    intro hname hsound
    -- Another document of the slot, as the commit adopts each document once.
    apply hsound.keep (adoption.adopt_keeps ?_ hadoption.key)
    rw [hsound.key]
    intro hkey
    exact hne other hother (by rw [hname, hkey])

theorem Sound.commit (hsound : Sound state) {changes : Name → Key → Option Nat}
    {checkpoints : Name → Key → Bool}
    (hcommit : commit state changes checkpoints = some next) : Sound next := by
  rw [Documents.commit] at hcommit
  obtain ⟨tx, hline, hcommit⟩ := bind_eq_some_iff.mp hcommit
  obtain ⟨hguard, hcommit⟩ := guard_bind_eq_some hcommit
  have htx := hsound.line tx hline
  obtain ⟨hadoptions, hdistinct⟩ := hsound.prepareAll hline changes checkpoints
  dsimp only at hcommit
  split at hcommit
  · cases hcommit
    apply hsound.toSettled.onLine
    refine ⟨htx.entry, htx.distinct, htx.loading, ?_⟩
    intro adoptions hsome
    cases hsome
    exact ⟨hadoptions, hdistinct⟩
  obtain ⟨adopted, hadopt, rfl⟩ := map_eq_some_iff.mp hcommit
  apply Settled.free
  apply hsound.toSettled.adoptAll _ hdistinct hadopt
  intro adoption hadoption
  obtain ⟨slot, hslot, hsoundAdoption, -⟩ := hadoptions adoption hadoption
  exact ⟨slot, hslot, hsoundAdoption⟩

theorem Sound.storeStep (hsound : Sound state) (hstep : storeStep state = some next) :
    Sound next := by
  rw [Documents.storeStep] at hstep
  obtain ⟨tx, hline, hstep⟩ := bind_eq_some_iff.mp hstep
  obtain ⟨adoptions, hqueued, hstep⟩ := bind_eq_some_iff.mp hstep
  obtain ⟨hadoptions, hdistinct⟩ := (hsound.line tx hline).queued adoptions hqueued
  split at hstep
  next adopted hadopt =>
    cases hstep
    apply Settled.free
    apply hsound.toSettled.adoptAll _ hdistinct hadopt
    intro adoption hadoption
    obtain ⟨slot, hslot, hsoundAdoption, -⟩ := hadoptions adoption hadoption
    exact ⟨slot, hslot, hsoundAdoption⟩
  · cases hstep
    exact hsound.toSettled.free

/-! ### Reads -/

theorem Sound.get (hsound : Sound state)
    (hget : get state name key handle = some next) : Sound next := by
  rw [Documents.get] at hget
  obtain ⟨slot, hslot, hget⟩ := bind_eq_some_iff.mp hget
  obtain ⟨hguard, hget⟩ := guard_bind_eq_some hget
  have hversion := SlotDefinition.version_of_assert hguard
  cases slot with
  | singleton singleton => cases hget
  | keyed keyed =>
    have haccess := (hsound.slot name _ hslot).access key
    dsimp only at hget
    split at hget
    next resident hresident =>
      cases hget
      have hused := hsound.keeps hslot haccess (Slot.access_keeps _ key)
      have hproduced := haccess.held key resident.value (by
        rw [Slot.access, Slot.held, hresident]
        rfl)
      rw [Slot.heldVersion_access, hversion] at hproduced
      refine ⟨⟨hused.slot, hused.undeclared, hused.document,
        hused.see hproduced, hused.gets⟩, hused.line⟩
    rename_i hnone
    split at hget
    · cases hget
      refine ⟨⟨hsound.slot, hsound.undeclared, hsound.document, hsound.seen, ?_⟩, hsound.line⟩
      refine forall_mem_cons.mpr ⟨?_, hsound.gets⟩
      refine ⟨_, hslot, hversion, ?_⟩
      apply Slot.heldVersion_of_absent
      apply Slot.held_of_access
      rw [Slot.access, Slot.held, hnone]
      rfl
    cases hget
    exact hsound

theorem Sound.getLoaded (hsound : Sound state) {read : Pending}
    (hget : getLoaded state read = some next) : Sound next := by
  rw [Documents.getLoaded] at hget
  obtain ⟨hguard, hget⟩ := guard_bind_eq_some hget
  have hmem := of_decide_eq_true hguard
  obtain ⟨slot, hslot, hget⟩ := bind_eq_some_iff.mp hget
  obtain ⟨other, hother, hpending⟩ := hsound.gets read hmem
  cases hslot.symm.trans hother
  have hgets : ∀ other ∈ state.gets.erase read, ∃ slot,
      state.slots other.name = some slot ∧ PendingSound slot other := by
    intro other hother
    exact hsound.gets other (mem_of_mem_erase hother)
  split at hget
  next value hheld =>
    cases hget
    have hproduced := (hsound.slot _ slot hslot).held read.key value hheld
    rw [hpending.heldVersion, hpending.version] at hproduced
    exact ⟨⟨hsound.slot, hsound.undeclared, hsound.document,
      hsound.see hproduced, hgets⟩, hsound.line⟩
  · cases hget
    exact ⟨⟨hsound.slot, hsound.undeclared, hsound.document, hsound.seen, hgets⟩, hsound.line⟩

theorem Sound.readValue (hsound : Sound state)
    (hread : readValue state name handle = some next) : Sound next := by
  rw [Documents.readValue] at hread
  obtain ⟨slot, hslot, hread⟩ := bind_eq_some_iff.mp hread
  obtain ⟨hguard, hread⟩ := guard_bind_eq_some hread
  have hversion := SlotDefinition.version_of_assert hguard
  cases slot with
  | keyed keyed => cases hread
  | singleton singleton =>
    obtain ⟨value, hvalue, hread⟩ := bind_eq_some_iff.mp hread
    cases hread
    have hslotSound := hsound.slot name _ hslot
    have hproduced : value.Produced handle := by
      rw [← hversion]
      rw [SingletonSlot.value.eq_def] at hvalue
      split at hvalue
      next initial hinitial =>
        obtain ⟨-, rfl⟩ := of_guard hvalue
        cases htracker : singleton.tracker with
        | none =>
          rw [getD_none, hslotSound.initial initial hinitial]
          rfl
        | some held => exact hslotSound.held [] held htracker
      · cases hvalue
    exact ⟨⟨hsound.slot, hsound.undeclared, hsound.document,
      hsound.see hproduced, hsound.gets⟩, hsound.line⟩

/-! ### Steps -/

/-- No draft and no cold read of the slot's documents is underway. -/
def Quiet (state : State) (name : Name) : Prop :=
  (∀ tx, state.line = some tx → (∀ entry ∈ tx.entries, entry.name = name → entry.draft = none) ∧
    ∀ load ∈ tx.loading, load.name ≠ name) ∧
  ∀ read ∈ state.gets, read.name ≠ name

/-- A step that mixes no versions: a hydration with a newer version comes while the slot
is quiet, and gives every pinned key a value of its own. -/
def Orderly (state : State) : Action → Prop
  | .hydrate name definition migrates => ∀ slot, state.slots name = some slot →
      slot.version = definition.version ∨ (Quiet state name ∧ slot.Retakes migrates)
  | _ => True

section

variable (hsound : Sound state)
include hsound

theorem Sound.hydrate {definition : Definition} {migrates : Bool}
    (hslot : state.slots name = some slot) (hcheck : slot.definition.check definition = true)
    (horderly : Orderly state (.hydrate name definition migrates)) :
    Sound (state.setSlot name (slot.hydrate definition migrates)) := by
  have hslotSound := hsound.slot name slot hslot
  rcases horderly slot hslot with hversion | ⟨⟨hline, hgets⟩, hretakes⟩
  · exact hsound.keeps hslot (hslotSound.hydrate hcheck (.inl hversion))
      (Slot.hydrate_keeps migrates hcheck hversion)
  refine ⟨hsound.toSettled.setSlot hslot (hslotSound.hydrate hcheck (.inr hretakes)) ?_, ?_⟩
  · rintro ⟨read, hread, hname⟩
    exact absurd hname (hgets read hread)
  intro tx htx
  obtain ⟨hentries, hloading⟩ := hline tx htx
  apply (hsound.line tx htx).setSlot hslot
  · intro entry hentry hname hsoundEntry
    have hnone := hentries entry hentry hname
    refine ⟨(slot.hydrate_key definition migrates _).trans hsoundEntry.key,
      hsoundEntry.found, ?_, ?_⟩
    · intro draft hdraft
      rw [hnone] at hdraft
      cases hdraft
    intro hdraft
    rw [hnone] at hdraft
    cases hdraft
  · rintro ⟨load, hload, hname⟩
    exact absurd hname (hloading load hload)
  intro adoptions _ adoption _ hname hsoundAdoption hdrafted
  apply hsoundAdoption.hydrate
  by_contra hprepared
  obtain ⟨entry, hentry, hentryName, hdraft⟩ :=
    hdrafted (isSome_iff_ne_none.mpr hprepared)
  rw [hentries entry hentry hentryName] at hdraft
  cases hdraft

theorem Sound.declare (hnone : state.slots name = none)
    (keyed persisted : Bool) (definition : Definition) :
    Sound { state.setSlot name (.new keyed persisted definition) with
      committed := if persisted then state.committed
        else update state.committed name fun _ => none } := by
  have hother : ∀ other slot, state.slots other = some slot → other ≠ name := by
    rintro other slot hslot rfl
    rw [hnone] at hslot
    cases hslot
  have hslots : ∀ other slot, state.slots other = some slot →
      (state.setSlot name (.new keyed persisted definition)).slots other = some slot := by
    intro other slot hslot
    rw [State.setSlot_other state (hother other slot hslot), hslot]
  have hcommitted : ∀ other, other ≠ name →
      (if persisted = true then state.committed
        else update state.committed name fun _ => none) other =
      state.committed other := by
    intro other hne
    split
    · rfl
    · exact update_of_ne hne _ _
  refine ⟨hsound.toSettled.change (fun _ _ => rfl) hcommitted ?_ (hsound.document name) ?_, ?_⟩
  · apply SlotSound.new
    · intro hpersisted key
      rw [if_pos hpersisted]
      exact hsound.undeclared name hnone key
    intro hmemory key
    rw [hmemory, if_neg Bool.false_ne_true, update_self]
  · intro read hread
    obtain ⟨slot, hslot, hpending⟩ := hsound.gets read hread
    exact ⟨slot, hslots _ slot hslot, hpending⟩
  intro tx htx
  have hsoundTx := hsound.line tx htx
  refine ⟨?_, hsoundTx.distinct, ?_, ?_⟩
  · intro entry hentry
    obtain ⟨slot, hslot, hsoundEntry⟩ := hsoundTx.entry entry hentry
    exact ⟨slot, hslots _ slot hslot, hsoundEntry⟩
  · intro load hload
    obtain ⟨slot, hslot, hpending⟩ := hsoundTx.loading load hload
    exact ⟨slot, hslots _ slot hslot, hpending⟩
  intro adoptions hqueued
  obtain ⟨hadoptions, hdistinct⟩ := hsoundTx.queued adoptions hqueued
  refine ⟨?_, hdistinct⟩
  intro adoption hadoption
  obtain ⟨slot, hslot, hsoundAdoption⟩ := hadoptions adoption hadoption
  exact ⟨slot, hslots _ slot hslot, hsoundAdoption⟩

/-- A line job's load. -/
theorem Sound.load (hline : state.line = none) {loaded : Slot}
    (hslot : state.slots name = some slot) (hpersisted : slot.persisted = true)
    (hhydrated : slot.definition.hydrated = true)
    (hload : slot.load (slot.key key) (state.store name (slot.key key)) = some loaded) :
    Sound (state.setSlot name loaded) := by
  have hslotSound := hsound.slot name slot hslot
  have hfree : ∀ tx, state.line = some tx → TransactionSound
      (update state.slots name (some loaded)) state.store tx := by
    intro tx htx
    rw [hline] at htx
    cases htx
  cases slot with
  | singleton singleton =>
    obtain ⟨found, hfound, rfl⟩ := map_eq_some_iff.mp hload
    refine ⟨hsound.toSettled.setSlot hslot
      (hslotSound.load_singleton hpersisted hhydrated (hsound.document name []) hfound) ?_,
      hfree⟩
    intro _ other
    have hdefinition : found.definition = singleton.definition ∧
        found.persisted = singleton.persisted ∧ found.initial = singleton.initial := by
      rw [SingletonSlot.load.eq_def] at hfound
      split at hfound
      · cases hfound
        exact ⟨rfl, rfl, rfl⟩
      split at hfound
      · cases hfound
        exact ⟨rfl, rfl, rfl⟩
      obtain ⟨⟨value, stored⟩, -, rfl⟩ := map_eq_some_iff.mp hfound
      exact ⟨rfl, rfl, rfl⟩
    obtain ⟨hdefinition, hpersisted', hinitial⟩ := hdefinition
    refine ⟨fun _ => rfl, hpersisted', ?_, ?_, ?_⟩
    · rw [Slot.definition, hdefinition]
      rfl
    · rw [Slot.initial, Slot.initial, hinitial]
      exact id
    intro _
    rw [Slot.heldVersion, hdefinition]
    rfl
  | keyed keyed =>
    obtain ⟨found, hfound, rfl⟩ := map_eq_some_iff.mp hload
    refine ⟨hsound.toSettled.setSlot hslot
      (hslotSound.load_keyed hpersisted (hsound.document name key) hfound) ?_, hfree⟩
    intro _ other
    exact KeyedSlot.load_stays hfound other

theorem Sound.evict (hline : state.line = none)
    (hslot : state.slots name = some (.keyed keyed)) (hpersisted : keyed.persisted = true) :
    Sound (state.setSlot name (.keyed (keyed.remove key))) := by
  refine ⟨hsound.toSettled.setSlot hslot ((hsound.slot name _ hslot).evict hpersisted key) ?_, ?_⟩
  · intro _ other
    refine ⟨fun _ => rfl, rfl, rfl, id, ?_⟩
    intro hversion
    rw [hversion, Slot.heldVersion]
    rw [Slot.heldVersion] at hversion
    dsimp only [KeyedSlot.remove]
    by_cases hother : other = key
    · subst hother
      rw [update_self]
      rfl
    rw [update_of_ne hother]
    exact hversion
  intro tx htx
  have htx : state.line = some tx := htx
  rw [hline] at htx
  cases htx

/-- An orderly step keeps the invariant. -/
theorem Sound.step {action : Action} (horderly : Orderly state action)
    (hstep : step state action = some next) : Sound next := by
  cases action with
  | declare name keyed persisted definition =>
    rw [Documents.step] at hstep
    split at hstep
    · cases hstep
    next hnone =>
      cases hstep
      exact hsound.declare hnone keyed persisted definition
  | hydrate name definition migrates =>
    obtain ⟨slot, hslot, hstep⟩ := bind_eq_some_iff.mp hstep
    obtain ⟨hguard, hstep⟩ := guard_bind_eq_some hstep
    cases hstep
    exact hsound.hydrate hslot hguard horderly
  | access name key =>
    obtain ⟨slot, hslot, hstep⟩ := bind_eq_some_iff.mp hstep
    cases hstep
    exact hsound.keeps hslot ((hsound.slot name slot hslot).access key)
      (slot.access_keeps key)
  | pin name key =>
    obtain ⟨slot, hslot, hstep⟩ := bind_eq_some_iff.mp hstep
    cases slot with
    | singleton singleton => cases hstep
    | keyed keyed =>
      cases hstep
      exact hsound.keeps hslot ((hsound.slot name _ hslot).pin key)
        (Slot.pin_keeps keyed key)
  | unpin name key =>
    obtain ⟨slot, hslot, hstep⟩ := bind_eq_some_iff.mp hstep
    cases slot with
    | singleton singleton => cases hstep
    | keyed keyed =>
      cases hstep
      exact hsound.keeps hslot ((hsound.slot name _ hslot).unpin key)
        (Slot.unpin_keeps keyed key)
  | read name handle => exact hsound.readValue hstep
  | get name key handle => exact hsound.get hstep
  | getLoaded read => exact hsound.getLoaded hstep
  | load name key =>
    obtain ⟨hguard, hstep⟩ := guard_bind_eq_some hstep
    obtain ⟨slot, hslot, hstep⟩ := bind_eq_some_iff.mp hstep
    obtain ⟨hready, hstep⟩ := guard_bind_eq_some hstep
    obtain ⟨loaded, hload, hstep⟩ := bind_eq_some_iff.mp hstep
    cases hstep
    rw [Bool.and_eq_true] at hready
    exact hsound.load (isNone_iff_eq_none.mp hguard) hslot
      hready.1 hready.2 hload
  | evict name key =>
    obtain ⟨hguard, hstep⟩ := guard_bind_eq_some hstep
    obtain ⟨slot, hslot, hstep⟩ := bind_eq_some_iff.mp hstep
    cases slot with
    | singleton singleton => cases hstep
    | keyed keyed =>
      dsimp only at hstep
      obtain ⟨hidle, rfl⟩ := of_guard hstep
      rw [Bool.and_eq_true] at hidle
      exact hsound.evict (isNone_iff_eq_none.mp hguard) hslot
        hidle.1
  | begin =>
    rw [Documents.step] at hstep
    split at hstep
    · cases hstep
    cases hstep
    apply hsound.toSettled.onLine
    exact ⟨nofun, .nil, nofun, nofun⟩
  | draft name key handle => exact hsound.draft hstep
  | draftLoaded load => exact hsound.draftLoaded hstep
  | retire name key handle => exact hsound.retire hstep
  | commit changes checkpoints => exact hsound.commit hstep
  | storeStep => exact hsound.storeStep hstep
  | cut =>
    rw [Documents.step] at hstep
    split at hstep
    · cases hstep
      exact hsound.toSettled.free
    · cases hstep

end

/-! ### Runs -/

/-- The documents of an object when it is made over a store. -/
def opened (store : Name → Key → Option StoredDocument) : State where
  slots := fun _ => none
  store := store
  line := none
  gets := []
  seen := []
  committed := fun name key => (store name key).map fun document => document.value.changes

variable {store : Name → Key → Option StoredDocument}

theorem sound_opened (hstore : ∀ name key document, store name key = some document →
    document.value.Produced document.version) : Sound (opened store) :=
  ⟨⟨nofun, fun _ _ _ => rfl, hstore, nofun, nofun⟩, nofun⟩

end Hummin.Documents
