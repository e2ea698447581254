/-
What a prepared batch may do: at most one action per document, each checked against the
stored incarnation, and at most one incarnation left live at an address.
-/
import Mathlib.Data.List.Nodup
import Mathlib.Data.List.Count
import Hummin.ExceptBind
import Hummin.MemoryDocuments

namespace Hummin.MemoryStorage

open List Option PropertyList JsMap

variable {state : State} {actions rest : List (Nat × DocumentAction)} {id : Nat}
  {action : DocumentAction} {address : DocumentAddress} {writes : List StorageWrite}

/-- The action leaves a new incarnation live. -/
def begins (pair : Nat × DocumentAction) : Bool :=
  pair.2.create.isSome && !pair.2.retire

/-- The action retires the incarnation `current`. -/
def ends (current : Option Nat) (pair : Nat × DocumentAction) : Bool :=
  pair.2.retire && decide (current = some pair.1)

/-- The actions about incarnations of an address. -/
def atAddress (state : State) (address : DocumentAddress) (actions : List (Nat × DocumentAction)) :
    List (Nat × DocumentAction) :=
  actions.filter fun pair => decide (actionAddress state pair.1 pair.2 = some address)

/-- What a gathered action of a document looks like. -/
def Formed (id : Nat) (action : DocumentAction) : Prop :=
  ∀ record, action.create = some record → record.id = id ∧ action.content.isSome = true

/-- What the checks of a batch leave. -/
structure Prepared (state : State) (actions : List (Nat × DocumentAction)) : Prop where
  distinct : (PropertyList.keys actions).Nodup
  formed : ∀ pair ∈ actions, Formed pair.1 pair.2
  checked : ∀ pair ∈ actions, checkDocumentAction state pair.1 pair.2 = .ok ()
  /-- Of the incarnations that begin at an address there is one. -/
  single : ∀ address, (atAddress state address actions).countP begins ≤ 1
  /-- One begins only where the current one is retired. -/
  replaced : ∀ address current, state.currentId address = some current →
    (atAddress state address actions).countP begins ≤
      (atAddress state address actions).countP (ends (some current))

theorem mem_atAddress {pair : Nat × DocumentAction} :
    pair ∈ atAddress state address actions ↔
      pair ∈ actions ∧ actionAddress state pair.1 pair.2 = some address := by
  simp [atAddress]

/-! ### Gathering -/

theorem prepareDocumentAction_formed {next : List (Nat × DocumentAction)} {write : StorageWrite}
    (hstep : prepareDocumentAction actions write = .ok next) (hdistinct : (keys actions).Nodup)
    (hformed : ∀ pair ∈ actions, Formed pair.1 pair.2) :
    (keys next).Nodup ∧ ∀ pair ∈ next, Formed pair.1 pair.2 := by
  -- An action set back at its key is formed when the changed one is.
  have hset : ∀ id action, Formed id action → next = JsMap.set id action actions →
      (keys next).Nodup ∧ ∀ pair ∈ next, Formed pair.1 pair.2 := by
    intro id action hnew hnext
    subst hnext
    refine ⟨keys_set_nodup id action hdistinct, fun pair hpair => ?_⟩
    rcases JsMap.mem_set hdistinct hpair with hpair | hpair
    · rw [hpair]
      exact hnew
    · exact hformed pair hpair
  have hfound : ∀ id, Formed id ((get id actions).getD ⟨none, none, false⟩) := by
    intro id
    cases hget : get id actions with
    | none => exact fun record hrecord => nomatch hrecord
    | some action => exact hformed (id, action) (mem_of_get_eq_some hget)
  cases write with
  | create record content =>
    simp only [prepareDocumentAction] at hstep
    split at hstep
    · cases hstep
    refine hset record.id _ ?_ (Except.ok.inj hstep).symm
    intro other hother
    exact ⟨by rw [some.inj hother], rfl⟩
  | change id content =>
    simp only [prepareDocumentAction] at hstep
    split at hstep
    · cases hstep
    refine hset id _ ?_ (Except.ok.inj hstep).symm
    intro other hother
    exact ⟨(hfound id other hother).1, rfl⟩
  | retire id =>
    simp only [prepareDocumentAction] at hstep
    split at hstep
    · cases hstep
    refine hset id _ ?_ (Except.ok.inj hstep).symm
    exact fun other hother => hfound id other hother
  | _ =>
    cases hstep
    exact ⟨hdistinct, hformed⟩

theorem prepareDocumentActions_formed (hactions : prepareDocumentActions writes = .ok actions) :
    (keys actions).Nodup ∧ ∀ pair ∈ actions, Formed pair.1 pair.2 := by
  have hfold : ∀ (writes : List StorageWrite) before,
      (keys before).Nodup → (∀ pair ∈ before, Formed pair.1 pair.2) →
      writes.foldlM prepareDocumentAction before = .ok actions →
      (keys actions).Nodup ∧ ∀ pair ∈ actions, Formed pair.1 pair.2 := by
    intro writes
    induction writes with
    | nil =>
      intro before hdistinct hformed hrun
      cases hrun
      exact ⟨hdistinct, hformed⟩
    | cons write rest ih =>
      intro before hdistinct hformed hrun
      rw [foldlM_except_cons_eq_ok_iff] at hrun
      obtain ⟨middle, hstep, hrest⟩ := hrun
      have hmiddle := prepareDocumentAction_formed hstep hdistinct hformed
      exact ih middle hmiddle.1 hmiddle.2 hrest
  exact hfold writes [] nodup_nil (fun pair hpair => nomatch hpair) hactions

/-! ### Counting -/

/-- What a batch adds to the live incarnations at an address. -/
def liveSum (state : State) (address : DocumentAddress) (actions : List (Nat × DocumentAction)) : Int :=
  ((atAddress state address actions).countP begins : Int) -
    (atAddress state address actions).countP (ends (state.currentId address))

/-- The live incarnations at an address before a batch. -/
def liveBefore (state : State) (address : DocumentAddress) : Int :=
  if (state.currentId address).isSome then 1 else 0

theorem liveChange_eq :
    liveChange state address id action =
      (if begins (id, action) then 1 else 0) -
        if ends (state.currentId address) (id, action) then 1 else 0 := by
  by_cases hcreate : action.create.isSome <;> by_cases hretire : action.retire <;>
    by_cases hcurrent : state.currentId address = some id <;>
      simp [liveChange, begins, ends, hcreate, hretire, hcurrent]

theorem countLive_get (counts : List (DocumentAddress × Int)) :
    (get address (countLive state counts id action)).getD (liveBefore state address) =
      (get address counts).getD (liveBefore state address) +
        liveSum state address [(id, action)] := by
  simp only [countLive]
  cases hplace : actionAddress state id action with
  | none => simp [liveSum, atAddress, hplace]
  | some place =>
    rw [get_set]
    by_cases hsame : address = place
    · subst hsame
      simp [liveSum, atAddress, hplace, liveChange_eq, liveBefore, countP_cons]
    · simp [liveSum, atAddress, hplace, hsame, Ne.symm hsame]

theorem liveSum_cons :
    liveSum state address ((id, action) :: rest) =
      liveSum state address [(id, action)] + liveSum state address rest := by
  by_cases hplace : actionAddress state id action = some address
  · simp [liveSum, atAddress, hplace, countP_cons]
    ring
  · simp [liveSum, atAddress, hplace]

/-- The checked loop: each action passes and the counts add up. -/
theorem checkDocumentActions_fold {counts final : List (DocumentAddress × Int)}
    (hrun : actions.foldlM (fun counts (id, action) => do
      checkDocumentAction state id action
      pure (countLive state counts id action)) counts = .ok final) :
    (∀ pair ∈ actions, checkDocumentAction state pair.1 pair.2 = .ok ()) ∧
      ∀ address, (get address final).getD (liveBefore state address) =
        (get address counts).getD (liveBefore state address) +
          liveSum state address actions := by
  induction actions generalizing counts with
  | nil =>
    cases hrun
    refine ⟨by simp, fun address => ?_⟩
    simp [liveSum, atAddress]
  | cons pair rest ih =>
    obtain ⟨id, action⟩ := pair
    rw [foldlM_except_cons_eq_ok_iff] at hrun
    obtain ⟨middle, hstep, hrest⟩ := hrun
    rw [except_bind_eq_ok_iff] at hstep
    obtain ⟨_, hchecked, hmiddle⟩ := hstep
    cases hmiddle
    obtain ⟨htail, hcounts⟩ := ih hrest
    constructor
    · exact forall_mem_cons.mpr ⟨hchecked, htail⟩
    intro address
    rw [hcounts address, countLive_get, @liveSum_cons state rest]
    ring

theorem liveBefore_le : liveBefore state address ≤ 1 := by
  rw [liveBefore]
  split <;> omega

@[simp]
theorem countP_ends_none : actions.countP (ends none) = 0 := by
  rw [countP_eq_zero]
  intro pair _
  simp [ends]

/-- A document is retired by at most one action. -/
theorem countP_ends_le {current : Option Nat} (hdistinct : (keys actions).Nodup) :
    (atAddress state address actions).countP (ends current) ≤ 1 := by
  cases current with
  | none => simp
  | some current =>
    have hkeys : ((atAddress state address actions).map Prod.fst).Nodup := by
      have hsub : (atAddress state address actions).Sublist actions := filter_sublist
      exact hdistinct.sublist (hsub.map Prod.fst)
    have hcount := nodup_iff_count_le_one.mp hkeys current
    refine le_trans ?_ hcount
    rw [count, countP_map]
    apply countP_mono_left
    intro pair _ hends
    simp only [ends, some.injEq, Bool.and_eq_true, decide_eq_true_eq] at hends
    simp [hends.2]

theorem checkDocumentActions_prepared (hdistinct : (keys actions).Nodup)
    (hformed : ∀ pair ∈ actions, Formed pair.1 pair.2)
    (hchecks : checkDocumentActions state actions = .ok ()) : Prepared state actions := by
  rw [checkDocumentActions, except_bind_eq_ok_iff] at hchecks
  obtain ⟨final, hrun, hcounts⟩ := hchecks
  obtain ⟨hchecked, hsums⟩ := checkDocumentActions_fold hrun
  have hlive : ∀ address, liveBefore state address + liveSum state address actions ≤ 1 := by
    intro address
    have hsum := hsums address
    rw [get_nil, getD_none] at hsum
    rw [← hsum]
    cases hget : get address final with
    | none => exact liveBefore_le
    | some live =>
      by_contra hmore
      rw [getD_some, not_le] at hmore
      rw [if_pos] at hcounts
      · cases hcounts
      rw [List.any_eq_true]
      exact ⟨(address, live), mem_of_get_eq_some hget, by simpa using hmore⟩
  refine ⟨hdistinct, hformed, hchecked, fun address => ?_, fun address current hcurrent => ?_⟩
  · have hsum := hlive address
    have hends := @countP_ends_le state actions address (state.currentId address) hdistinct
    rw [liveSum] at hsum
    cases hcurrent : state.currentId address with
    | none =>
      simpa [hcurrent, liveBefore] using hsum
    | some current =>
      simp only [liveBefore, hcurrent, isSome_some, if_true] at hsum hends
      omega
  have hsum := hlive address
  rw [liveSum, hcurrent] at hsum
  simp only [liveBefore, hcurrent, isSome_some, if_true] at hsum
  omega

/-- A batch that was not refused. -/
theorem prepareCommit_prepared {prepared : List StorageWrite}
    (hprepare : prepareCommit state writes = .ok (prepared, actions)) : Prepared state actions := by
  rw [prepareCommit, except_bind_eq_ok_iff] at hprepare
  obtain ⟨resolved, -, hprepare⟩ := hprepare
  rw [except_bind_eq_ok_iff] at hprepare
  obtain ⟨_, -, hprepare⟩ := hprepare
  rw [except_bind_eq_ok_iff] at hprepare
  obtain ⟨gathered, hgathered, hprepare⟩ := hprepare
  rw [except_bind_eq_ok_iff] at hprepare
  obtain ⟨_, hchecks, hresult⟩ := hprepare
  cases hresult
  have hformed := prepareDocumentActions_formed hgathered
  exact checkDocumentActions_prepared hformed.1 hformed.2 hchecks

/-! ### What a checked action finds -/

section

variable (hchecked : checkDocumentAction state id action = .ok ())

include hchecked

theorem checkDocumentAction_create
    (hcreate : action.create.isSome = true) : state.documents id = none := by
  rw [checkDocumentAction] at hchecked
  split at hchecked
  · cases hchecked
  split at hchecked
  · cases hchecked
  next _ hnew =>
    by_contra hsome
    exact hnew ⟨hcreate, isSome_iff_ne_none.mpr hsome⟩

theorem checkDocumentAction_change (hcreate : action.create = none) :
    ∃ stored, state.documents id = some stored ∧ stored.record.retiredAt = none := by
  rw [checkDocumentAction] at hchecked
  split at hchecked
  · cases hchecked
  rename_i hknown
  split at hchecked
  · cases hchecked
  split at hchecked
  · cases hchecked
  rename_i hretired
  cases hstored : state.documents id with
  | none => exact absurd ⟨by simp [hcreate], by simp [hstored]⟩ hknown
  | some stored => exact ⟨stored, rfl, by simpa [hstored] using hretired⟩

/-- A delta has the version of the last revision. -/
theorem checkDocumentAction_delta {content : DocumentContent}
    (hcontent : action.content = some content) (hdelta : content.isBase = false) :
    ∃ stored last, state.documents id = some stored ∧ stored.revisions.getLast? = some last ∧
      last.content.version = content.version := by
  rw [checkDocumentAction] at hchecked
  split at hchecked
  · cases hchecked
  split at hchecked
  · cases hchecked
  split at hchecked
  · cases hchecked
  cases content with
  | base version value => cases hdelta
  | delta version ops =>
    simp only [hcontent] at hchecked
    cases hstored : state.documents id with
    | none => simp [hstored] at hchecked
    | some stored =>
      cases hlast : stored.revisions.getLast? with
      | none => simp [hstored, hlast] at hchecked
      | some last =>
        simp only [hstored, hlast, bind_some] at hchecked
        split at hchecked
        next hversion =>
          exact ⟨stored, last, rfl, hlast, hversion⟩
        · cases hchecked

end

end Hummin.MemoryStorage
