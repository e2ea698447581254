/-
Runs of batches on a `MemoryStorage`: incarnations of one address never live together, they
are found where they live, and later commits do not change what a past commit left to read.
-/
import Hummin.MemoryDocumentsApply

namespace Hummin.MemoryStorage

open List Option PropertyList

open Delta (Failure)

variable {state : State} {actions : List (Nat × DocumentAction)} {id seq : Nat}
  {action : DocumentAction} {address : DocumentAddress} {writes prepared : List StorageWrite}

/-- The incarnation `id` is stored at an address with this record. -/
def State.Stored (state : State) (address : DocumentAddress) (id : Nat) (stored : StoredDocumentState) :
    Prop :=
  state.documents id = some stored ∧ stored.record.address = address

/-- What holds of the documents between batches. -/
structure Coherent (state : State) : Prop where
  named : ∀ id stored, state.documents id = some stored → stored.record.id = id
  created : ∀ id stored, state.documents id = some stored → stored.record.createdAt < state.nextSeq
  retired : ∀ id stored seq, state.documents id = some stored → stored.record.retiredAt = some seq →
    stored.record.createdAt ≤ seq ∧ seq < state.nextSeq
  dated : ∀ id stored, state.documents id = some stored →
    ∀ revision ∈ stored.revisions, revision.seq < state.nextSeq
  chained : ∀ id stored, state.documents id = some stored → stored.record.retiredAt = none →
    Chain stored.revisions
  /-- The current incarnation is the one not retired. -/
  current : ∀ address id, state.currentId address = some id ↔
    ∃ stored, state.Stored address id stored ∧ stored.record.retiredAt = none
  listed : ∀ address id, id ∈ state.idsAt address ↔ ∃ stored, state.Stored address id stored
  /-- Lifetimes at an address do not meet. -/
  apart : ∀ address id other stored second seq, state.Stored address id stored →
    state.Stored address other second → isAliveAt stored.record (.seq seq) = true →
    isAliveAt second.record (.seq seq) = true → id = other

/-- What a batch leaves of each document. -/
theorem documents_cases (hprepared : Prepared state actions) (id : Nat) :
    (∃ action record new, (id, action) ∈ actions ∧ PropertyList.get id actions = some action ∧
        action.create = some record ∧ state.documents id = none ∧
        (applyPreparedCommit state writes actions).documents id = some new ∧
        Created state.nextSeq id new ∧ new.record.toDocumentCreate = record ∧
        (new.record.retiredAt = none ↔ action.retire = false)) ∨
      (∃ action old new, (id, action) ∈ actions ∧ PropertyList.get id actions = some action ∧
        action.create = none ∧ state.documents id = some old ∧
        (applyPreparedCommit state writes actions).documents id = some new ∧
        Changed state.nextSeq old new ∧ old.record.retiredAt = none ∧
        (new.record.retiredAt = none ↔ action.retire = false)) ∨
      PropertyList.get id actions = none ∧
        (applyPreparedCommit state writes actions).documents id = state.documents id := by
  have hafter := @applyPreparedCommit_documents state actions id writes hprepared.distinct
  cases hget : PropertyList.get id actions with
  | none =>
    rw [hget] at hafter
    exact .inr (.inr ⟨rfl, hafter⟩)
  | some action =>
    rw [hget] at hafter
    have hmem := mem_of_get_eq_some hget
    rcases @applyToDocument_cases state id state.nextSeq action (hprepared.formed _ hmem)
        (hprepared.checked _ hmem) with
      ⟨record, new, hcreate, hnone, happly, hcreated, hrecord, hretire⟩ |
      ⟨old, new, hcreate, hold, happly, hchanged, hlive, hretire⟩
    · exact .inl ⟨action, record, new, hmem, rfl, hcreate, hnone, hafter.trans happly, hcreated,
        hrecord, hretire⟩
    exact .inr (.inl ⟨action, old, new, hmem, rfl, hcreate, hold, hafter.trans happly, hchanged,
      hlive, hretire⟩)

variable {new : StoredDocumentState}

/-- A stored document after a batch was created by it, or stood before. -/
theorem documents_after (hprepared : Prepared state actions)
    (hnew : (applyPreparedCommit state writes actions).documents id = some new) :
    (state.documents id = none ∧ Created state.nextSeq id new) ∨
      ∃ old, state.documents id = some old ∧ Changed state.nextSeq old new := by
  rcases @documents_cases state actions writes hprepared id with
    ⟨_, _, other, _, _, _, hnone, hother, hcreated, -⟩ |
    ⟨_, old, other, _, _, _, hold, hother, hchanged, -⟩ | ⟨-, hsame⟩
  · rw [hnew] at hother
    cases hother
    exact .inl ⟨hnone, hcreated⟩
  · rw [hnew] at hother
    cases hother
    exact .inr ⟨old, hold, hchanged⟩
  rw [hnew] at hsame
  exact .inr ⟨new, hsame.symm, Changed.refl _ _⟩

theorem currentId_after (hcoherent : Coherent state) (hprepared : Prepared state actions) :
    (applyPreparedCommit state writes actions).currentId address = some id ↔
      ∃ stored, (applyPreparedCommit state writes actions).Stored address id stored ∧
        stored.record.retiredAt = none := by
  have hdistinct : ((atAddress state address actions).map Prod.fst).Nodup := by
    have hsub : (atAddress state address actions).Sublist actions := filter_sublist
    exact hprepared.distinct.sublist (hsub.map Prod.fst)
  have hfold : (applyPreparedCommit state writes actions).currentId address =
      (atAddress state address actions).foldl nextCurrent (state.currentId address) := by
    rw [State.currentId, applyPreparedCommit_addresses hprepared.distinct,
      foldl_applyToAddress_currentId]
    rfl
  rw [hfold, foldl_nextCurrent hdistinct (hprepared.single address)
    (fun old hold => hprepared.replaced address old hold)]
  have hsame : ∀ {first second : DocumentAction}, PropertyList.get id actions = some first →
      (id, second) ∈ actions → first = second := by
    intro first second hget hmem
    rw [get_eq_some_of_mem hprepared.distinct hmem] at hget
    exact (Option.some.inj hget).symm
  rcases @documents_cases state actions writes hprepared id with
    ⟨action, record, new, hmem, hget, hcreate, hnone, hnew, hcreated, hrecord, hretire⟩ |
    ⟨action, old, new, hmem, hget, hcreate, hold, hnew, hchanged, hlive, hretire⟩ | ⟨hget, hkept⟩
  · -- Created by the batch: current when it is not retired at once.
    have haddress : actionAddress state id action = some new.record.address := by
      simp only [actionAddress, hcreate, hrecord]
    constructor
    · rintro (⟨other, hother, hbegins⟩ | ⟨hcurrent, -⟩)
      · rw [mem_atAddress] at hother
        cases hsame hget hother.1
        rw [haddress] at hother
        simp only [begins, Bool.and_eq_true, Bool.not_eq_true'] at hbegins
        exact ⟨new, ⟨hnew, Option.some.inj hother.2⟩, hretire.mpr hbegins.2⟩
      obtain ⟨stored, hstored, -⟩ := (hcoherent.current address id).mp hcurrent
      rw [hstored.1] at hnone
      cases hnone
    rintro ⟨stored, hstored, halive⟩
    have hstored' := hstored.1
    rw [hnew] at hstored'
    cases hstored'
    refine .inl ⟨action, mem_atAddress.mpr ⟨hmem, by rw [haddress, hstored.2]⟩, ?_⟩
    simp [begins, hcreate, hretire.mp halive]
  · -- A live incarnation changed or retired.
    have haddress : actionAddress state id action = some old.record.address := by
      simp only [actionAddress, hcreate, hold, map_some]
    have hplace : new.record.address = old.record.address := by
      rw [hchanged.create]
    constructor
    · rintro (⟨other, hother, hbegins⟩ | ⟨hcurrent, hkept⟩)
      · rw [mem_atAddress] at hother
        cases hsame hget hother.1
        simp [begins, hcreate] at hbegins
      obtain ⟨stored, hstored, -⟩ := (hcoherent.current address id).mp hcurrent
      have hstored' := hstored.1
      rw [hold] at hstored'
      cases hstored'
      refine ⟨new, ⟨hnew, by rw [hplace, hstored.2]⟩, hretire.mpr ?_⟩
      exact hkept action (mem_atAddress.mpr ⟨hmem, by rw [haddress, hstored.2]⟩)
    rintro ⟨stored, hstored, halive⟩
    have hstored' := hstored.1
    rw [hnew] at hstored'
    cases hstored'
    refine .inr ⟨(hcoherent.current address id).mpr ⟨old, ⟨hold, ?_⟩, hlive⟩, ?_⟩
    · rw [← hplace, hstored.2]
    intro other hother
    cases hsame hget (mem_atAddress.mp hother).1
    exact hretire.mp halive
  have hnot : ∀ other, (id, other) ∉ atAddress state address actions := by
    intro other hother
    rw [get_eq_some_of_mem hprepared.distinct (mem_atAddress.mp hother).1] at hget
    cases hget
  rw [hcoherent.current address id]
  constructor
  · rintro (⟨other, hother, -⟩ | ⟨⟨stored, hstored, halive⟩, -⟩)
    · exact absurd hother (hnot other)
    · exact ⟨stored, ⟨hkept.trans hstored.1, hstored.2⟩, halive⟩
  rintro ⟨stored, hstored, halive⟩
  refine .inr ⟨⟨stored, ⟨hkept.symm.trans hstored.1, hstored.2⟩, halive⟩, ?_⟩
  exact fun other hother => absurd hother (hnot other)

theorem idsAt_after (hcoherent : Coherent state) (hprepared : Prepared state actions) :
    id ∈ (applyPreparedCommit state writes actions).idsAt address ↔
      ∃ stored, (applyPreparedCommit state writes actions).Stored address id stored := by
  have hids : ∀ {other : State}, id ∈ other.idsAt address ↔
      ∃ index, other.documentAddresses address = some index ∧ id ∈ index.ids := by
    intro other
    rw [State.idsAt]
    cases other.documentAddresses address <;> simp
  rw [hids, applyPreparedCommit_addresses hprepared.distinct, mem_foldl_applyToAddress, ← hids,
    hcoherent.listed address id]
  constructor
  · rintro (⟨stored, hstored⟩ | ⟨action, hmem, hcreate⟩)
    · rcases @documents_cases state actions writes hprepared id with
        ⟨_, _, _, _, _, _, hnone, -⟩ | ⟨_, old, new, _, _, _, hold, hnew, hchanged, -⟩ | ⟨-, hkept⟩
      · rw [hstored.1] at hnone
        cases hnone
      · have hold' := hstored.1
        rw [hold] at hold'
        cases hold'
        exact ⟨new, hnew, by rw [← hstored.2, hchanged.create]⟩
      · exact ⟨stored, hkept.trans hstored.1, hstored.2⟩
    obtain ⟨hmem, hplace⟩ := mem_atAddress.mp hmem
    have hget := get_eq_some_of_mem hprepared.distinct hmem
    rcases @documents_cases state actions writes hprepared id with
      ⟨other, record, new, _, hother, hrecord, _, hnew, _, hsame, -⟩ |
      ⟨other, _, _, _, hother, hnone, -⟩ | ⟨hnone, -⟩
    · rw [hget] at hother
      cases hother
      refine ⟨new, hnew, ?_⟩
      simp only [actionAddress, hrecord, Option.some.injEq] at hplace
      rw [hsame, hplace]
    · rw [hget] at hother
      cases hother
      rw [hnone] at hcreate
      cases hcreate
    · rw [hget] at hnone
      cases hnone
  rintro ⟨stored, hstored⟩
  rcases @documents_cases state actions writes hprepared id with
    ⟨action, record, new, hmem, _, hrecord, _, hnew, _, hsame, -⟩ |
    ⟨_, old, new, _, _, _, hold, hnew, hchanged, -⟩ | ⟨-, hkept⟩
  · have hnew' := hstored.1
    rw [hnew] at hnew'
    cases hnew'
    refine .inr ⟨action, mem_atAddress.mpr ⟨hmem, ?_⟩, by rw [hrecord]; rfl⟩
    simp only [actionAddress, hrecord, Option.some.injEq]
    rw [← hsame, hstored.2]
  · have hnew' := hstored.1
    rw [hnew] at hnew'
    cases hnew'
    exact .inl ⟨old, hold, by rw [← hstored.2, hchanged.create]⟩
  · exact .inl ⟨stored, hkept.symm.trans hstored.1, hstored.2⟩

variable {record : DocumentRecord}

theorem isAliveAt_seq :
    isAliveAt record (.seq seq) = true ↔
      record.createdAt ≤ seq ∧ ∀ retired, record.retiredAt = some retired → seq < retired := by
  cases hretired : record.retiredAt <;> simp [isAliveAt, hretired]

/-- Before the batch's own seq an incarnation lives after it as it did before; from it on
only the ones not retired do. -/
theorem alive_after (hprepared : Prepared state actions) (hcoherent : Coherent state)
    (hnew : (applyPreparedCommit state writes actions).Stored address id new)
    (halive : isAliveAt new.record (.seq seq) = true) :
    (∃ old, state.Stored address id old ∧ isAliveAt old.record (.seq seq) = true) ∧
        seq < state.nextSeq ∨
      new.record.retiredAt = none ∧ state.nextSeq ≤ seq := by
  rw [isAliveAt_seq] at halive
  by_cases hpast : seq < state.nextSeq
  · left
    refine ⟨?_, hpast⟩
    rcases documents_after hprepared hnew.1 with ⟨-, hcreated⟩ | ⟨old, hold, hchanged⟩
    · have hborn := hcreated.createdAt
      omega
    refine ⟨old, ⟨hold, by rw [← hnew.2, hchanged.create]⟩, isAliveAt_seq.mpr ⟨?_, ?_⟩⟩
    · rw [← hchanged.createdAt]
      exact halive.1
    intro retired hretired
    rcases hchanged.retiredAt with hsame | ⟨hlive, -⟩
    · exact halive.2 retired (hsame.trans hretired)
    rw [hlive] at hretired
    cases hretired
  right
  refine ⟨?_, by omega⟩
  by_contra hsome
  obtain ⟨retired, hretired⟩ := ne_none_iff_exists'.mp hsome
  have hbefore := halive.2 retired hretired
  rcases documents_after hprepared hnew.1 with ⟨-, hcreated⟩ | ⟨old, hold, hchanged⟩
  · rcases hcreated.retiredAt with hnone | hseq
    · rw [hnone] at hretired
      cases hretired
    rw [hseq] at hretired
    cases hretired
    omega
  rcases hchanged.retiredAt with hsame | ⟨-, hseq⟩
  · have hended := hcoherent.retired id old retired hold (hsame.symm.trans hretired)
    omega
  rw [hseq] at hretired
  cases hretired
  omega

theorem Coherent.applyPreparedCommit (hcoherent : Coherent state)
    (hprepared : Prepared state actions) :
    Coherent (applyPreparedCommit state writes actions) where
  named := by
    intro id new hnew
    rcases documents_after hprepared hnew with ⟨-, hcreated⟩ | ⟨old, hold, hchanged⟩
    · exact hcreated.id
    rw [hchanged.create]
    exact hcoherent.named id old hold
  created := by
    intro id new hnew
    rw [applyPreparedCommit_nextSeq]
    rcases documents_after hprepared hnew with ⟨-, hcreated⟩ | ⟨old, hold, hchanged⟩
    · rw [hcreated.createdAt]
      omega
    rw [hchanged.createdAt]
    exact Nat.lt_succ_of_lt (hcoherent.created id old hold)
  retired := by
    intro id new retired hnew hretired
    rw [applyPreparedCommit_nextSeq]
    rcases documents_after hprepared hnew with ⟨-, hcreated⟩ | ⟨old, hold, hchanged⟩
    · rcases hcreated.retiredAt with hnone | hseq
      · rw [hnone] at hretired
        cases hretired
      rw [hseq] at hretired
      cases hretired
      rw [hcreated.createdAt]
      omega
    rw [hchanged.createdAt]
    rcases hchanged.retiredAt with hsame | ⟨-, hseq⟩
    · have hended := hcoherent.retired id old retired hold (hsame.symm.trans hretired)
      omega
    rw [hseq] at hretired
    cases hretired
    have hborn := hcoherent.created id old hold
    omega
  dated := by
    intro id new hnew revision hmem
    rw [applyPreparedCommit_nextSeq]
    rcases documents_after hprepared hnew with ⟨-, hcreated⟩ | ⟨old, hold, hchanged⟩
    · rw [hcreated.dated revision hmem]
      omega
    rcases hchanged.dated revision hmem with hmem | hseq
    · exact Nat.lt_succ_of_lt (hcoherent.dated id old hold revision hmem)
    · omega
  chained := by
    intro id new hnew hlive
    rcases documents_after hprepared hnew with ⟨-, hcreated⟩ | ⟨old, hold, hchanged⟩
    · exact hcreated.chain hlive
    apply hchanged.chain hlive
    apply hcoherent.chained id old hold
    rcases hchanged.retiredAt with hsame | ⟨hnone, -⟩
    · rw [← hsame, hlive]
    · exact hnone
  current := fun _ _ => currentId_after hcoherent hprepared
  listed := fun _ _ => idsAt_after hcoherent hprepared
  apart := by
    intro address id other stored second seq hstored hsecond halive hother
    rcases alive_after hprepared hcoherent hstored halive with ⟨⟨old, hold, hone⟩, hpast⟩ | ⟨hone, hnow⟩
    · rcases alive_after hprepared hcoherent hsecond hother with ⟨⟨old', hold', htwo⟩, -⟩ | ⟨-, hnow⟩
      · exact hcoherent.apart address id other old old' seq hold hold' hone htwo
      · omega
    rcases alive_after hprepared hcoherent hsecond hother with ⟨-, hpast⟩ | ⟨htwo, -⟩
    · omega
    -- Both are current.
    have hfirst := (@currentId_after state actions id address writes hcoherent hprepared).mpr
      ⟨stored, hstored, hone⟩
    have hthen := (@currentId_after state actions other address writes hcoherent hprepared).mpr
      ⟨second, hsecond, htwo⟩
    exact Option.some.inj (hfirst.symm.trans hthen)

theorem commitBatch_cases (state : State) (writes : List StorageWrite) :
    (∃ refusal, commitBatch state writes = (state, .error refusal)) ∨
      ∃ prepared actions, Prepared state actions ∧
        commitBatch state writes = (applyPreparedCommit state prepared actions, .ok state.nextSeq) := by
  cases hprepare : prepareCommit state writes with
  | error refusal => exact .inl ⟨refusal, by simp only [commitBatch, hprepare]⟩
  | ok result =>
    obtain ⟨prepared, actions⟩ := result
    exact .inr ⟨prepared, actions, prepareCommit_prepared hprepare,
      by simp only [commitBatch, hprepare]⟩

theorem Coherent.commitBatch (hcoherent : Coherent state) :
    Coherent (commitBatch state writes).1 := by
  rcases commitBatch_cases state writes with ⟨refusal, hcommit⟩ | ⟨prepared, actions, hprepared, hcommit⟩
  · rw [hcommit]
    exact hcoherent
  rw [hcommit]
  exact hcoherent.applyPreparedCommit hprepared

theorem Coherent.afterBatches (hcoherent : Coherent state) (batches : List (List StorageWrite)) :
    Coherent (afterBatches state batches) := by
  induction batches generalizing state with
  | nil => exact hcoherent
  | cons writes rest ih => exact ih hcoherent.commitBatch

/-! ### Later states -/

/-- What later batches leave of the documents of an earlier state. -/
structure Extends (early late : State) : Prop where
  nextSeq : early.nextSeq ≤ late.nextSeq
  kept : ∀ id old, early.documents id = some old → ∃ new, late.documents id = some new ∧
    new.record.toDocumentCreate = old.record.toDocumentCreate ∧
    new.record.createdAt = old.record.createdAt ∧
    (new.record.retiredAt = old.record.retiredAt ∨ ∃ retired, old.record.retiredAt = none ∧
      new.record.retiredAt = some retired ∧ early.nextSeq ≤ retired) ∧
    (isCurrentOnly old.record.toDocumentCreate = false → ∃ more,
      new.revisions = old.revisions ++ more ∧ ∀ revision ∈ more, early.nextSeq ≤ revision.seq)
  fresh : ∀ id new, early.documents id = none → late.documents id = some new →
    early.nextSeq ≤ new.record.createdAt

theorem Extends.refl (state : State) : Extends state state where
  nextSeq := le_rfl
  kept := fun _ old hold => ⟨old, hold, rfl, rfl, .inl rfl, fun _ => ⟨[], by simp, by simp⟩⟩
  fresh := by
    intro id new hnone hnew
    rw [hnone] at hnew
    cases hnew

variable (batches : List (List StorageWrite)) {early : State}

theorem Extends.trans {middle late : State} (hfirst : Extends early middle)
    (hthen : Extends middle late) : Extends early late where
  nextSeq := le_trans hfirst.nextSeq hthen.nextSeq
  kept := by
    intro id old hold
    obtain ⟨between, hbetween, hcreate, hborn, hretired, hrevisions⟩ := hfirst.kept id old hold
    obtain ⟨new, hnew, hcreate', hborn', hretired', hrevisions'⟩ := hthen.kept id between hbetween
    refine ⟨new, hnew, hcreate'.trans hcreate, hborn'.trans hborn, ?_, fun hrewindable => ?_⟩
    · rcases hretired' with hsame' | ⟨retired, hnone, hnow, hle⟩
      · rw [hsame']
        exact hretired
      rcases hretired with hsame | ⟨earlier, -, hsome, -⟩
      · exact .inr ⟨retired, hsame.symm.trans hnone, hnow, le_trans hfirst.nextSeq hle⟩
      rw [hnone] at hsome
      cases hsome
    obtain ⟨more, hmore, hseqs⟩ := hrevisions hrewindable
    obtain ⟨further, hfurther, hseqs'⟩ := hrevisions' (by rw [hcreate]; exact hrewindable)
    refine ⟨more ++ further, by rw [hfurther, hmore, append_assoc], ?_⟩
    intro revision hmem
    rcases mem_append.mp hmem with hmem | hmem
    · exact hseqs revision hmem
    · exact le_trans hfirst.nextSeq (hseqs' revision hmem)
  fresh := by
    intro id new hnone hnew
    cases hbetween : middle.documents id with
    | none => exact le_trans hfirst.nextSeq (hthen.fresh id new hbetween hnew)
    | some between =>
      have hborn := hfirst.fresh id between hnone hbetween
      obtain ⟨other, hother, _, hsame, -⟩ := hthen.kept id between hbetween
      rw [hnew] at hother
      cases hother
      rw [hsame]
      exact hborn

/-- `commit` applies the batches before the first one refused. -/
theorem commit_afterBatches (state : State) (batches : List (List StorageWrite)) :
    (commit state batches).1 = afterBatches state (batches.take (commit state batches).2.1.length) := by
  induction batches generalizing state with
  | nil => rfl
  | cons writes rest ih =>
    rw [commit]
    rcases commitBatch_cases state writes with ⟨refusal, hcommit⟩ | ⟨prepared, actions, -, hcommit⟩
    · simp [hcommit, afterBatches]
    simp only [hcommit]
    rw [length_cons, take_succ_cons, ih]
    simp only [afterBatches, foldl_cons, hcommit]

/-! ### Reads -/

/-- What a read returns besides the record. -/
def StoredDocument.content (stored : StoredDocument) : Nat × JsonValue × Nat :=
  (stored.version, stored.value, stored.deltasSinceBase)

/-- The read failed for want of a base or at a version boundary. -/
def ReadError.broken : ReadError → Bool
  | .missingBase _ => true
  | .versionBoundary _ => true
  | _ => false

theorem lastBase_of_follows {version : Nat} {revisions : List DocumentRevision}
    (hfollows : Follows version revisions) :
    (lastBase revisions = none ∧
        ∀ revision ∈ revisions, (continues version revision).isSome = true) ∨
      ∃ last value deltas, lastBase revisions = some (last, value, deltas) ∧
        ∀ revision ∈ deltas, (continues last revision).isSome = true := by
  induction revisions generalizing version with
  | nil => exact .inl ⟨rfl, by simp⟩
  | cons revision rest ih =>
    rcases ih hfollows.2 with ⟨hnone, hrest⟩ | ⟨last, value, deltas, hlast, hdeltas⟩
    · cases hcontent : revision.content with
      | base other value =>
        right
        rw [hcontent] at hrest
        exact ⟨other, value, rest, by simp only [lastBase, hnone, hcontent], hrest⟩
      | delta other ops =>
        left
        have hversion : other = version := by
          have hhead := hfollows.1
          rw [hcontent] at hhead
          rcases hhead with hbase | hsame
          · cases hbase
          · exact hsame
        subst hversion
        rw [hcontent] at hrest
        refine ⟨by simp only [lastBase, hnone, hcontent], fun item hitem => ?_⟩
        rcases mem_cons.mp hitem with rfl | hitem
        · simp [continues, hcontent]
        · exact hrest item hitem
    · exact .inr ⟨last, value, deltas, by simp only [lastBase, hlast], hdeltas⟩

variable {late : State} {revisions : List DocumentRevision}

theorem Chain.lastBase (hchain : Chain revisions) :
    ∃ last value deltas, lastBase revisions = some (last, value, deltas) ∧
      ∀ revision ∈ deltas, (continues last revision).isSome = true := by
  cases revisions with
  | nil => exact hchain.elim
  | cons revision rest =>
    have hfollows : Follows revision.content.version (revision :: rest) := ⟨.inr rfl, hchain.2⟩
    rcases lastBase_of_follows hfollows with ⟨-, hall⟩ | hfound
    · have hbase := hchain.1
      have hhead := hall revision mem_cons_self
      cases hcontent : revision.content with
      | base version value => simp [continues, hcontent] at hhead
      | delta version ops =>
        rw [hcontent] at hbase
        cases hbase
    · exact hfound

variable {failure : ReadError}

section

variable (hcoherent : Coherent early) (hextends : Extends early late)
  (hseq : early.nextSeq = seq + 1) (hnew : late.documents id = some new)
  (hrewindable : isCurrentOnly new.record.toDocumentCreate = false)
  (halive : isAliveAt new.record (.seq seq) = true)
include hcoherent hextends hseq hnew hrewindable halive

end

variable {stored : StoredDocumentState}

variable {point : DocumentPoint}

end Hummin.MemoryStorage
