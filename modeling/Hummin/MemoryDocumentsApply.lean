/-
Applying a prepared batch, document by document and address by address, and the invariant
it keeps: the addresses list their incarnations, the current one is the one not retired,
lifetimes at an address do not meet, and a live incarnation has a base to read from.
-/
import Hummin.MemoryDocumentsActions

namespace Hummin.MemoryStorage

open List Function PropertyList

variable {state : State} {actions rest : List (Nat × DocumentAction)} {id seq : Nat}
  {action : DocumentAction} {address : DocumentAddress} {writes : List StorageWrite}

/-! ### Document by document -/

theorem applyDocumentActions_cons :
    applyDocumentActions seq state ((id, action) :: rest) =
      applyDocumentActions seq (applyDocumentAction seq state id action) rest := rfl

theorem applyDocumentActions_documents (hdistinct : (PropertyList.keys actions).Nodup) :
    (applyDocumentActions seq state actions).documents id =
      match get id actions with
      | none => state.documents id
      | some action => applyToDocument seq (state.documents id) action := by
  induction actions generalizing state with
  | nil => rfl
  | cons pair rest ih =>
    obtain ⟨head, first⟩ := pair
    simp only [PropertyList.keys, map_cons, nodup_cons] at hdistinct
    rw [applyDocumentActions_cons, ih hdistinct.2]
    by_cases hsame : head = id
    · subst hsame
      have hnone : get head rest = none :=
        (get_eq_none_iff head rest).mpr hdistinct.1
      simp [hnone, applyDocumentAction]
    rw [get_cons_of_ne hsame]
    simp [applyDocumentAction, update_of_ne (Ne.symm hsame)]

/-- The address of an action does not depend on the other documents. -/
theorem actionAddress_congr {other : State} (hsame : state.documents id = other.documents id) :
    actionAddress state id action = actionAddress other id action := by
  simp only [actionAddress, hsame]

theorem atAddress_applyDocumentAction {head : Nat} {first : DocumentAction}
    (hnew : head ∉ keys rest) :
    atAddress (applyDocumentAction seq state head first) address rest =
      atAddress state address rest := by
  apply filter_congr
  intro pair hpair
  have hne : pair.1 ≠ head := by
    intro heq
    exact hnew (heq ▸ mem_map_of_mem hpair)
  congr 2
  apply actionAddress_congr
  simp [applyDocumentAction, update_of_ne hne]

theorem applyDocumentActions_addresses (hdistinct : (PropertyList.keys actions).Nodup) :
    (applyDocumentActions seq state actions).documentAddresses address =
      (atAddress state address actions).foldl
        (fun index pair => applyToAddress pair.1 pair.2 index) (state.documentAddresses address) := by
  induction actions generalizing state with
  | nil => rfl
  | cons pair rest ih =>
    obtain ⟨head, first⟩ := pair
    simp only [PropertyList.keys, map_cons, nodup_cons] at hdistinct
    rw [applyDocumentActions_cons, ih hdistinct.2, atAddress_applyDocumentAction hdistinct.1]
    cases hplace : actionAddress state head first with
    | none => simp [atAddress, applyDocumentAction, hplace]
    | some place =>
      by_cases hsame : place = address
      · subst hsame
        simp [atAddress, applyDocumentAction, hplace]
      · simp [atAddress, applyDocumentAction, hplace, hsame, update_of_ne (Ne.symm hsame)]

theorem foldl_applyRecord :
    (writes.foldl applyRecord state).documents = state.documents ∧
      (writes.foldl applyRecord state).documentAddresses = state.documentAddresses ∧
      (writes.foldl applyRecord state).nextSeq = state.nextSeq := by
  induction writes generalizing state with
  | nil => simp
  | cons write rest ih =>
    have hstep : (applyRecord state write).documents = state.documents ∧
        (applyRecord state write).documentAddresses = state.documentAddresses ∧
        (applyRecord state write).nextSeq = state.nextSeq := by
      rw [applyRecord]
      split <;> simp
    rw [foldl_cons, ih.1, ih.2.1, ih.2.2]
    exact hstep

theorem applyPreparedCommit_documents (hdistinct : (keys actions).Nodup) :
    (applyPreparedCommit state writes actions).documents id =
      match get id actions with
      | none => state.documents id
      | some action => applyToDocument state.nextSeq (state.documents id) action := by
  have hrecords := @foldl_applyRecord state writes
  rw [applyPreparedCommit]
  show (applyDocumentActions state.nextSeq (writes.foldl applyRecord state) actions).documents id = _
  rw [applyDocumentActions_documents hdistinct, hrecords.1]

theorem applyPreparedCommit_addresses (hdistinct : (keys actions).Nodup) :
    (applyPreparedCommit state writes actions).documentAddresses address =
      (atAddress state address actions).foldl
        (fun index pair => applyToAddress pair.1 pair.2 index) (state.documentAddresses address) := by
  have hrecords := @foldl_applyRecord state writes
  rw [applyPreparedCommit]
  show (applyDocumentActions state.nextSeq (writes.foldl applyRecord state)
    actions).documentAddresses address = _
  have hat : atAddress (writes.foldl applyRecord state) address actions =
      atAddress state address actions := by
    apply filter_congr
    intro pair _
    congr 2
    exact actionAddress_congr (by rw [hrecords.1])
  rw [applyDocumentActions_addresses hdistinct, hrecords.2.1, hat]

@[simp]
theorem applyPreparedCommit_nextSeq :
    (applyPreparedCommit state writes actions).nextSeq = state.nextSeq + 1 := rfl

/-! ### Address by address -/

/-- The incarnations an address lists. -/
def State.idsAt (state : State) (address : DocumentAddress) : List Nat :=
  match state.documentAddresses address with
  | none => []
  | some index => index.ids

/-- The current incarnation after an action at its address. -/
def nextCurrent (current : Option Nat) (pair : Nat × DocumentAction) : Option Nat :=
  if begins pair then some pair.1 else if ends current pair then none else current

variable {index : Option DocumentAddressIndex}

theorem applyToAddress_currentId {pair : Nat × DocumentAction} :
    (applyToAddress pair.1 pair.2 index).bind (·.currentId) =
      nextCurrent (index.bind (·.currentId)) pair := by
  cases index with
  | none =>
    by_cases hcreate : pair.2.create.isSome <;> by_cases hretire : pair.2.retire <;>
      simp [applyToAddress, nextCurrent, begins, ends, hcreate, hretire]
  | some index =>
    by_cases hcreate : pair.2.create.isSome <;> by_cases hretire : pair.2.retire <;>
      simp [applyToAddress, nextCurrent, begins, ends, hcreate, hretire]

theorem foldl_applyToAddress_currentId :
    (actions.foldl (fun index pair => applyToAddress pair.1 pair.2 index) index).bind
        (·.currentId) =
      actions.foldl nextCurrent (index.bind (·.currentId)) := by
  induction actions generalizing index with
  | nil => rfl
  | cons pair rest ih => rw [foldl_cons, foldl_cons, ih, applyToAddress_currentId]

theorem mem_insertSorted {other : Nat} {ids : List Nat} :
    other ∈ insertSorted id ids ↔ other = id ∨ other ∈ ids := by
  have hsplit : ids = ids.takeWhile (fun entry => decide (entry < id)) ++
      ids.dropWhile fun entry => decide (entry < id) := takeWhile_append_dropWhile.symm
  constructor
  · intro hmem
    rw [insertSorted, mem_append, mem_cons] at hmem
    rw [hsplit, mem_append]
    tauto
  intro hmem
  rw [hsplit, mem_append] at hmem
  rw [insertSorted, mem_append, mem_cons]
  tauto

/-- An address lists what it listed and what was created there. -/
theorem mem_foldl_applyToAddress {other : Nat} :
    (∃ after, actions.foldl (fun index pair => applyToAddress pair.1 pair.2 index) index =
        some after ∧ other ∈ after.ids) ↔
      (∃ before, index = some before ∧ other ∈ before.ids) ∨
        ∃ action, (other, action) ∈ actions ∧ action.create.isSome = true := by
  induction actions generalizing index with
  | nil => simp
  | cons pair rest ih =>
    obtain ⟨head, first⟩ := pair
    have hstep : (∃ after, applyToAddress head first index = some after ∧ other ∈ after.ids) ↔
        (∃ before, index = some before ∧ other ∈ before.ids) ∨
          other = head ∧ first.create.isSome = true := by
      by_cases hcreate : first.create.isSome <;> by_cases hretire : first.retire <;>
        cases index <;> simp [applyToAddress, hcreate, hretire, mem_insertSorted, or_comm]
    rw [foldl_cons, ih, hstep]
    constructor
    · rintro ((hold | ⟨rfl, hcreate⟩) | ⟨action, hmem, hcreate⟩)
      · exact .inl hold
      · exact .inr ⟨first, mem_cons_self, hcreate⟩
      · exact .inr ⟨action, mem_cons_of_mem _ hmem, hcreate⟩
    rintro (hold | ⟨action, hmem, hcreate⟩)
    · exact .inl (.inl hold)
    rcases mem_cons.mp hmem with heq | hmem
    · cases heq
      exact .inl (.inr ⟨rfl, hcreate⟩)
    · exact .inr ⟨action, hmem, hcreate⟩

variable {current : Option Nat}

/-- An action that begins no incarnation keeps the current one unless it retires it. -/
theorem nextCurrent_eq_some_iff {pair : Nat × DocumentAction} (hbegins : begins pair = false) :
    nextCurrent current pair = some id ↔
      current = some id ∧ ∀ action, (id, action) = pair → action.retire = false := by
  obtain ⟨head, first⟩ := pair
  rw [nextCurrent, hbegins, if_neg Bool.false_ne_true]
  split
  next hends =>
    simp only [ends, Bool.and_eq_true, decide_eq_true_eq] at hends
    constructor
    · rintro ⟨⟩
    rintro ⟨hsame, hkept⟩
    have hfalse := hkept first (by rw [Option.some.inj (hsame.symm.trans hends.2)])
    exact absurd hends.1 (Bool.eq_false_iff.mp hfalse)
  next hends =>
    refine ⟨fun hsame => ⟨hsame, ?_⟩, And.left⟩
    rintro action ⟨⟩
    simpa [ends, hsame] using hends

/-- Where no incarnation begins, the current one stays unless it is retired. -/
theorem foldl_nextCurrent_kept (hnone : actions.countP begins = 0) :
    actions.foldl nextCurrent current = some id ↔
      current = some id ∧ ∀ action, (id, action) ∈ actions → action.retire = false := by
  induction actions generalizing current with
  | nil => simp
  | cons pair rest ih =>
    obtain ⟨hhead, hrest⟩ := forall_mem_cons.mp (countP_eq_zero.mp hnone)
    rw [foldl_cons, ih (countP_eq_zero.mpr hrest),
      nextCurrent_eq_some_iff (Bool.not_eq_true _ ▸ hhead), and_assoc, ← forall_and]
    simp only [mem_cons, or_imp]

/-- The current incarnation of an address after the actions there: the one that begins, or
the one that was current and is not retired. -/
theorem foldl_nextCurrent (hdistinct : (actions.map Prod.fst).Nodup)
    (hsingle : actions.countP begins ≤ 1)
    (hreplaced : ∀ old, current = some old → actions.countP begins ≤ actions.countP (ends (some old))) :
    actions.foldl nextCurrent current = some id ↔
      (∃ action, (id, action) ∈ actions ∧ begins (id, action) = true) ∨
        current = some id ∧ ∀ action, (id, action) ∈ actions → action.retire = false := by
  induction actions generalizing current with
  | nil => simp
  | cons pair rest ih =>
    simp only [map_cons, nodup_cons] at hdistinct
    rw [countP_cons] at hsingle
    rw [foldl_cons]
    by_cases hhead : begins pair = true
    · have hnone : rest.countP begins = 0 := by
        rw [if_pos hhead] at hsingle
        omega
      rw [foldl_nextCurrent_kept hnone, nextCurrent, if_pos hhead]
      constructor
      · rintro ⟨hsame, -⟩
        cases hsame
        exact .inl ⟨pair.2, mem_cons_self, hhead⟩
      rintro (⟨action, hmem, hbegins⟩ | ⟨hsame, hkept⟩)
      · rcases mem_cons.mp hmem with rfl | hmem
        · refine ⟨rfl, fun other hother => ?_⟩
          exact absurd (mem_map_of_mem hother) hdistinct.1
        · exact absurd hbegins (countP_eq_zero.mp hnone _ hmem)
      -- The current one is retired where another begins.
      have hends := hreplaced id hsame
      rw [countP_cons_of_pos hhead] at hends
      have hsome : 0 < (pair :: rest).countP (ends (some id)) := by omega
      obtain ⟨other, hmem, hother⟩ := countP_pos_iff.mp hsome
      simp only [ends, Bool.and_eq_true, decide_eq_true_eq, Option.some.injEq] at hother
      have hfalse := hkept other.2 (by rw [hother.2]; exact hmem)
      rw [hother.1] at hfalse
      cases hfalse
    rw [Bool.not_eq_true] at hhead
    have hnotHead : ∀ action, (id, action) ∈ pair :: rest ∧ begins (id, action) = true ↔
        (id, action) ∈ rest ∧ begins (id, action) = true := by
      intro action
      simp only [mem_cons, or_and_right, or_iff_right_iff_imp]
      rintro ⟨rfl, hbegins⟩
      exact absurd hbegins (Bool.eq_false_iff.mp hhead)
    rw [ih hdistinct.2 (by simpa [hhead] using hsingle), nextCurrent_eq_some_iff hhead, and_assoc,
      ← forall_and]
    · simp only [hnotHead]
      simp only [mem_cons, or_imp]
    intro old hold
    obtain ⟨hbefore, hkept⟩ := (nextCurrent_eq_some_iff hhead).mp hold
    have hcounts := hreplaced old hbefore
    rwa [countP_cons_of_neg (by simp [hhead]), countP_cons_of_neg] at hcounts
    simp only [ends, Bool.and_eq_true, decide_eq_true_eq, Option.some.injEq, not_and]
    rintro hretire rfl
    exact Bool.false_ne_true ((hkept pair.2 rfl).symm.trans hretire)

/-! ### One incarnation -/

/-- Each delta has the version of the revision before it. -/
def Follows (version : Nat) : List DocumentRevision → Prop
  | [] => True
  | revision :: rest =>
    (revision.content.isBase = true ∨ revision.content.version = version) ∧
      Follows revision.content.version rest

/-- Revisions one can read from: first a base. -/
def Chain : List DocumentRevision → Prop
  | [] => False
  | revision :: rest => revision.content.isBase = true ∧ Follows revision.content.version rest

variable {revisions : List DocumentRevision} {last next : DocumentRevision}

theorem Follows.append {version : Nat} (hfollows : Follows version revisions)
    (hlast : revisions.getLast? = some last)
    (hnext : next.content.isBase = true ∨ next.content.version = last.content.version) :
    Follows version (revisions ++ [next]) := by
  induction revisions generalizing version with
  | nil => cases hlast
  | cons revision rest ih =>
    refine ⟨hfollows.1, ?_⟩
    cases rest with
    | nil =>
      cases hlast
      exact ⟨hnext, trivial⟩
    | cons second rest => exact ih hfollows.2 (by simpa using hlast)

theorem Chain.append (hchain : Chain revisions) (hlast : revisions.getLast? = some last)
    (hnext : next.content.isBase = true ∨ next.content.version = last.content.version) :
    Chain (revisions ++ [next]) := by
  cases revisions with
  | nil => cases hlast
  | cons revision rest =>
    refine ⟨hchain.1, ?_⟩
    cases rest with
    | nil =>
      cases hlast
      exact ⟨hnext, trivial⟩
    | cons second rest => exact Follows.append hchain.2 (by simpa using hlast) hnext

/-- What an action leaves of a stored incarnation. -/
structure Changed (seq : Nat) (old new : StoredDocumentState) : Prop where
  create : new.record.toDocumentCreate = old.record.toDocumentCreate
  createdAt : new.record.createdAt = old.record.createdAt
  retiredAt : new.record.retiredAt = old.record.retiredAt ∨
    old.record.retiredAt = none ∧ new.record.retiredAt = some seq
  dated : ∀ revision ∈ new.revisions, revision ∈ old.revisions ∨ revision.seq = seq
  chain : new.record.retiredAt = none → Chain old.revisions → Chain new.revisions
  /-- A rewindable document keeps its revisions. -/
  kept : isCurrentOnly old.record.toDocumentCreate = false →
    ∃ more, new.revisions = old.revisions ++ more ∧ ∀ revision ∈ more, revision.seq = seq

/-- An incarnation created at `seq`. -/
structure Created (seq id : Nat) (new : StoredDocumentState) : Prop where
  id : new.record.id = id
  createdAt : new.record.createdAt = seq
  retiredAt : new.record.retiredAt = none ∨ new.record.retiredAt = some seq
  dated : ∀ revision ∈ new.revisions, revision.seq = seq
  chain : new.record.retiredAt = none → Chain new.revisions

theorem Changed.refl (seq : Nat) (stored : StoredDocumentState) : Changed seq stored stored where
  create := rfl
  createdAt := rfl
  retiredAt := .inl rfl
  dated := fun _ hmem => .inl hmem
  chain := fun _ hchain => hchain
  kept := fun _ => ⟨[], by simp, by simp⟩

/-- The revisions after a change that passed its check. -/
theorem changed_pushRevision {stored : StoredDocumentState} {content : DocumentContent}
    (hdelta : content.isBase = false → ∃ last, stored.revisions.getLast? = some last ∧
      last.content.version = content.version) :
    Changed seq stored { stored with
      revisions := pushRevision stored.record stored.revisions ⟨content, seq⟩ } := by
  refine ⟨rfl, rfl, .inl rfl, ?_, ?_, ?_⟩
  · intro revision hmem
    simp only [pushRevision] at hmem
    split at hmem
    · rw [mem_singleton] at hmem
      exact .inr (by rw [hmem])
    rcases mem_append.mp hmem with hmem | hmem
    · exact .inl hmem
    rw [mem_singleton] at hmem
    exact .inr (by rw [hmem])
  · intro _ hchain
    simp only [pushRevision]
    split
    next hbase =>
      exact ⟨hbase.1, trivial⟩
    cases hlast : stored.revisions.getLast? with
    | none =>
      rw [getLast?_eq_none_iff] at hlast
      rw [hlast] at hchain
      exact hchain.elim
    | some last =>
      apply hchain.append hlast
      by_cases hbase : content.isBase = true
      · exact .inl hbase
      obtain ⟨other, hother, hversion⟩ := hdelta (by simpa using hbase)
      rw [hlast] at hother
      cases hother
      exact .inr hversion.symm
  · intro hrewindable
    refine ⟨[⟨content, seq⟩], ?_, by simp⟩
    simp [pushRevision, hrewindable]

/-- Retiring an incarnation. -/
theorem Changed.retire {old new : StoredDocumentState} (hchanged : Changed seq old new)
    (hlive : old.record.retiredAt = none) :
    Changed seq old { record := { new.record with retiredAt := some seq }
                      revisions := if isCurrentOnly old.record.toDocumentCreate then []
                        else new.revisions } where
  create := hchanged.create
  createdAt := hchanged.createdAt
  retiredAt := .inr ⟨hlive, rfl⟩
  dated := by
    intro revision hmem
    split at hmem
    · cases hmem
    · exact hchanged.dated revision hmem
  chain := by
    exact nofun
  kept := by
    intro hrewindable
    simpa [hrewindable] using hchanged.kept hrewindable

/-- What a checked action does to its document: it creates it, or changes a live one. -/
theorem applyToDocument_cases (hformed : Formed id action)
    (hchecked : checkDocumentAction state id action = .ok ()) :
    (∃ record new, action.create = some record ∧ state.documents id = none ∧
        applyToDocument seq (state.documents id) action = some new ∧ Created seq id new ∧
        new.record.toDocumentCreate = record ∧ (new.record.retiredAt = none ↔ action.retire = false)) ∨
      ∃ old new, action.create = none ∧ state.documents id = some old ∧
        applyToDocument seq (state.documents id) action = some new ∧ Changed seq old new ∧
        old.record.retiredAt = none ∧ (new.record.retiredAt = none ↔ action.retire = false) := by
  cases hcreate : action.create with
  | some record =>
    have hnone := checkDocumentAction_create hchecked (by rw [hcreate]; rfl)
    obtain ⟨hid, hsome⟩ := hformed record hcreate
    obtain ⟨content, hcontent⟩ := Option.isSome_iff_exists.mp hsome
    have hbase : content.isBase = true := by
      by_contra hdelta
      obtain ⟨stored, _, hstored, -⟩ :=
        checkDocumentAction_delta hchecked hcontent (by simpa using hdelta)
      rw [hnone] at hstored
      cases hstored
    left
    refine ⟨record, _, rfl, hnone, by simp only [applyToDocument, hcreate, hcontent]; rfl,
      ⟨hid, rfl, ?_, ?_, ?_⟩, rfl, ?_⟩
    · dsimp only
      split <;> simp
    · intro revision hmem
      dsimp only at hmem
      split at hmem
      · cases hmem
      rw [mem_singleton] at hmem
      rw [hmem]
    · intro hlive
      have hkept : action.retire = false := by simpa using hlive
      simpa [hkept, Chain, Follows] using hbase
    · simp
  | none =>
    obtain ⟨old, hold, hlive⟩ := checkDocumentAction_change hchecked hcreate
    right
    -- The content command first, then the retirement.
    have hcontent : ∃ revisions, Changed seq old { old with revisions := revisions } ∧
        action.content.elim old.revisions (fun content =>
          pushRevision old.record old.revisions ⟨content, seq⟩) = revisions := by
      cases hcontent : action.content with
      | none => exact ⟨_, Changed.refl seq old, rfl⟩
      | some content =>
        refine ⟨_, changed_pushRevision fun hdelta => ?_, rfl⟩
        obtain ⟨stored, last, hstored, hlast, hversion⟩ :=
          checkDocumentAction_delta hchecked hcontent hdelta
        rw [hold] at hstored
        cases hstored
        exact ⟨last, hlast, hversion⟩
    obtain ⟨revisions, hchanged, hrevisions⟩ := hcontent
    cases hretire : action.retire with
    | false =>
      refine ⟨old, { old with revisions := revisions }, rfl, hold, ?_, hchanged, hlive, ?_⟩
      · rw [← hrevisions]
        cases hcontent : action.content <;>
          simp [applyToDocument, hcreate, hold, hretire, hcontent]
      · simp [hlive]
    | true =>
      refine ⟨old, _, rfl, hold, ?_, hchanged.retire hlive, hlive, ?_⟩
      · rw [← hrevisions]
        cases hcontent : action.content <;>
          simp [applyToDocument, hcreate, hold, hretire, hcontent]
      · simp

end Hummin.MemoryStorage
