/-
Outcomes come in line order: what every run on the Session line delivers, and in which order.
-/
import Hummin.SessionLineOrder

namespace Hummin.SessionLine

open List

namespace State

variable {ε α κ : Type} {state : State ε α κ} {index : Nat}

/-! ### Quiet states -/

/-- Nothing is left to run: every job's promise settled, and the part of every commit. -/
def Quiet (state : State ε α κ) : Prop :=
  state.tasks.queue = [] ∧ ∀ index < state.nextIndex,
    (∃ result, (state.jobs index).line = .ran result) ∧
      ((state.jobs index).admitted = true → (state.jobs index).part.isSome = true)

section

variable (hsound : Sound state)

include hsound

section

variable (hquiet : Quiet state)
include hquiet

theorem Sound.tick?_of_quiet (chain : Chain) : ((state.jobs index).stage chain).tick? = none := by
  cases htick : ((state.jobs index).stage chain).tick? with
  | none => rfl
  | some tick =>
    have hqueued := (hsound.timed.due tick (index, chain)).mpr htick
    rw [hquiet.1] at hqueued
    cases hqueued

section

variable (hkind : (state.jobs index).kind ≠ .upkeep)
include hkind

theorem Sound.outcome_of_quiet : (state.jobs index).outcome.isFinished = true := by
  have hindex := hsound.standing.lt_nextIndex hkind
  obtain ⟨⟨result, hline⟩, hpart⟩ := hquiet.2 index hindex
  have hfits := hsound.standing.fits index hkind
  have houtcome := hfits.outcomeFits
  rw [Job.OutcomeFits] at houtcome
  have hnow : (state.jobs index).outcome.tick? = none := hsound.tick?_of_quiet hquiet .outcome
  obtain ⟨stage, hstage⟩ : ∃ stage, (state.jobs index).outcome = stage := ⟨_, rfl⟩
  rw [hstage] at houtcome hnow ⊢
  cases stage with
  | idle => exact absurd hstage ((hsound.prompt index).ran hkind result hline)
  | called _ => cases hnow
  | adopting _ => cases hnow
  | settling _ => cases hnow
  | following =>
    obtain ⟨hidle, hunfinished, hadmitted, -⟩ := houtcome
    have hpublication := hfits.publicationFits
    rw [Job.PublicationFits] at hpublication
    have hpublished : (state.jobs index).publication.tick? = none :=
      hsound.tick?_of_quiet hquiet .publication
    cases hpublicationStage : (state.jobs index).publication with
    | blocked =>
      have hnone := (hsound.prompt index).published hpublicationStage
      have hsome := hpart hadmitted
      rw [hnone] at hsome
      cases hsome
    | idle => exact absurd hpublicationStage hidle
    | called _ =>
      rw [hpublicationStage] at hpublished
      cases hpublished
    | finished _ =>
      rw [hpublicationStage] at hunfinished
      cases hunfinished
    | _ =>
      rw [hpublicationStage] at hpublication
      exact hpublication.elim
  | finished _ => rfl
  | _ => exact houtcome.elim

theorem Sound.fence_of_quiet : (state.jobs index).fence.isFinished = true := by
  induction index using Nat.strong_induction_on with
  | _ index ih =>
    have hopened : (openedAt state.jobs (state.jobs index).before).isSome = true := by
      have hbehind := hsound.standing.behind index hkind
      cases hbefore : (state.jobs index).before with
      | none => rfl
      | some place =>
        rw [hbefore] at hbehind
        exact (Stage.isSome_finishedAt? _).trans (ih place hbehind.1 hbehind.2.1)
    have hfence := (hsound.standing.fits index hkind).fenceFits
    rw [hsound.outcome_of_quiet hquiet hkind] at hfence
    have hnow : (state.jobs index).fence.tick? = none := hsound.tick?_of_quiet hquiet .fence
    cases hstage : (state.jobs index).fence with
    | blocked =>
      rw [hstage] at hfence
      rw [hfence] at hopened
      cases hopened
    | following =>
      rw [hstage] at hfence
      cases hfence.2
    | finished _ => rfl
    | idle =>
      rw [hstage] at hfence
      exact hfence.elim
    | listening =>
      rw [hstage] at hfence
      exact hfence.elim
    | _ =>
      rw [hstage] at hnow
      cases hnow

/-- In a quiet state every outcome is delivered. -/
theorem Sound.delivery_of_quiet : (state.jobs index).delivery.isFinished = true := by
  have hsettled := hsound.outcome_of_quiet hquiet hkind
  have hfits := hsound.standing.fits index hkind
  have hdelivery := hfits.deliveryFits
  have hfence := hsound.fence_of_quiet hquiet hkind
  have hnow : (state.jobs index).delivery.tick? = none := hsound.tick?_of_quiet hquiet .delivery
  cases hstage : (state.jobs index).delivery with
  | idle =>
    rw [hstage] at hdelivery
    rw [hdelivery] at hsettled
    cases hsettled
  | blocked =>
    rw [hstage] at hdelivery
    have hopened := hfits.fenceFits
    cases hfenceStage : (state.jobs index).fence with
    | finished tick =>
      rw [hfenceStage] at hopened
      obtain ⟨-, before, -, hbefore⟩ := hopened
      rw [hdelivery.2] at hbefore
      cases hbefore
    | _ =>
      rw [hfenceStage] at hfence
      cases hfence
  | following =>
    rw [hstage] at hdelivery
    cases hsettled.symm.trans hdelivery.2.1
  | listening =>
    rw [hstage] at hdelivery
    cases hsettled.symm.trans hdelivery.2
  | finished _ => rfl
  | _ =>
    rw [hstage] at hnow
    cases hnow

end

end

theorem Sound.ends_of_settled (hsettled : (state.jobs index).outcome.isFinished = true) :
    (state.jobs index).ends = [] := by
  by_cases hkind : (state.jobs index).kind = .upkeep
  · exact (hsound.standing.upkeep index hkind).ends
  have houtcome := (hsound.standing.fits index hkind).outcomeFits
  rw [Job.OutcomeFits] at houtcome
  cases hstage : (state.jobs index).outcome with
  | finished _ =>
    rw [hstage] at houtcome
    exact houtcome.1
  | _ =>
    rw [hstage] at hsettled
    cases hsettled

theorem Sound.endsRun_of_quiet (hquiet : Quiet state) :
    state.endsRun.Perm (range state.nextEnd) := by
  have hnone : pendingEnds state.jobs state.nextIndex = [] := by
    rw [pendingEnds, flatMap_eq_nil_iff]
    intro index _
    by_cases hkind : (state.jobs index).kind = .upkeep
    · exact (hsound.standing.upkeep index hkind).ends
    · exact hsound.ends_of_settled (hsound.outcome_of_quiet hquiet hkind)
  have hended := hsound.ended
  rw [hnone, append_nil] at hended
  exact hended

end

/-! ### After a failure -/

/-- A step delivers at most one outcome, and after a failure the ones it poisons are
`SessionFailed`. -/
theorem step_delivered [DecidableEq κ] {action : Action ε α κ} {next : State ε α κ}
    (hstep : state.step action = some next) :
    (∀ failure, state.failure = some failure → next.failure = some failure) ∧
      (next.delivered = state.delivered ∨ ∃ entry : Delivery ε α,
        next.delivered = state.delivered ++ [entry] ∧
          (state.poisoned entry.index = true → entry.outcome = .error .sessionFailed)) := by
  have hkept {other : State ε α κ} (hother : some other = some next)
      (hfailure : other.failure = state.failure) (hdelivered : other.delivered = state.delivered) :
      (∀ failure, state.failure = some failure → next.failure = some failure) ∧
        (next.delivered = state.delivered ∨ ∃ entry : Delivery ε α,
          next.delivered = state.delivered ++ [entry] ∧
            (state.poisoned entry.index = true → entry.outcome = .error .sessionFailed)) := by
    cases hother
    exact ⟨fun failure heq => hfailure.trans heq, .inl hdelivered⟩
  rw [State.step.eq_def] at hstep
  dsimp only at hstep
  split at hstep
  · split at hstep
    · exact hkept hstep rfl rfl
    · cases hstep
  · exact hkept hstep rfl rfl
  · split at hstep
    · cases hstep
    split at hstep
    · cases hstep
    split at hstep
    · exact hkept hstep rfl rfl
    split at hstep
    · exact hkept hstep rfl rfl
    · cases hstep
  · split at hstep
    · exact hkept hstep rfl rfl
    split at hstep
    · exact hkept hstep rfl rfl
    · exact hkept hstep rfl rfl
  · split at hstep
    · exact hkept hstep rfl rfl
    split at hstep
    · cases hstep
    · exact hkept hstep rfl rfl
  · split at hstep
    · cases hstep
    split at hstep
    · cases hstep
    · exact hkept hstep rfl rfl
  · split at hstep
    · cases hstep
    split at hstep
    · cases hstep
    · exact hkept hstep rfl rfl
  · split at hstep
    · split at hstep
      · refine hkept hstep ?_ ?_
        · rw [settleRan]
          split <;> rfl
        rw [settleRan]
        split <;> rfl
      · cases hstep
    · cases hstep
  · split at hstep
    · exact hkept hstep rfl rfl
    · cases hstep
  · split at hstep
    · exact hkept hstep rfl rfl
    · cases hstep
  · split at hstep
    · exact hkept hstep rfl rfl
    next hnone =>
      cases hstep
      refine ⟨fun failure heq => ?_, .inl rfl⟩
      cases hnone.symm.trans heq
  split at hstep
  · cases hstep
  next index chain popped _ =>
    cases chain with
    | fence =>
      refine hkept hstep ?_ ?_
      · rw [react]
        split <;> rfl
      rw [react]
      split <;> rfl
    | delivery =>
      rw [react] at hstep
      split at hstep
      · cases hstep
        refine ⟨fun failure heq => heq, .inr ⟨_, rfl, fun hpoisoned => ?_⟩⟩
        exact if_pos hpoisoned
      · exact hkept hstep rfl rfl
    | _ => exact hkept hstep rfl rfl

/-- After the failure no outcome of its boundary's later jobs is delivered but
`SessionFailed`, and what was delivered stays. -/
theorem run_after_failure [DecidableEq κ] {actions : List (Action ε α κ)} {after : State ε α κ}
    {failAt : Int} {own : List Nat} (hfailure : state.failure = some (failAt, own))
    (hrun : run State.step state actions = some after) :
    after.failure = some (failAt, own) ∧ ∃ added, after.delivered = state.delivered ++ added ∧
      ∀ entry ∈ added, failAt < entry.index → entry.index ∉ own →
        entry.outcome = .error .sessionFailed := by
  induction actions generalizing state with
  | nil =>
    cases hrun
    exact ⟨hfailure, [], (append_nil _).symm, nofun⟩
  | cons action rest ih =>
    obtain ⟨next, hstep, hrest⟩ := run_cons_eq_some hrun
    obtain ⟨hkept, hdelivered⟩ := step_delivered hstep
    obtain ⟨hafter, added, hadded, hpoisoned⟩ := ih (hkept _ hfailure) hrest
    refine ⟨hafter, ?_⟩
    rcases hdelivered with heq | ⟨entry, heq, hentry⟩
    · exact ⟨added, heq ▸ hadded, hpoisoned⟩
    refine ⟨entry :: added, ?_, ?_⟩
    · rw [hadded, heq, append_assoc]
      rfl
    intro found hfound hlater hown
    rcases mem_cons.mp hfound with rfl | hmem
    · apply hentry
      rw [poisoned, hfailure]
      exact Bool.and_eq_true_iff.mpr ⟨decide_eq_true hlater, decide_eq_true hown⟩
    · exact hpoisoned found hmem hlater hown

/-! ### Line order -/

/-- An outcome in the log comes after all jobs before it, or it is an exempt job's that
admitted no commit and met no unpublished writer; a commit's comes after its part settled, and
a success after its publication. -/
def InOrder (state : State ε α κ) : Prop :=
  ∀ (earlier : List (Delivery ε α)) (entry : Delivery ε α) later,
    state.delivered = earlier ++ entry :: later →
    (state.jobs entry.index).kind ≠ .upkeep ∧
      ((∀ index < entry.index, (state.jobs index).kind ≠ .upkeep → index ∈ earlier.map (·.index)) ∨
        ((state.jobs entry.index).kind = .exempt ∧ (state.jobs entry.index).admitted = false ∧
          (state.jobs entry.index).met = [])) ∧
      ((state.jobs entry.index).admitted = true → (state.jobs entry.index).part.isSome = true ∧
        ∀ value, entry.outcome = Except.ok value → (state.jobs entry.index).part = some (.ok ()))

theorem Sound.outcome_of_delivered (hsound : Sound state) {entry : Delivery ε α}
    (hentry : entry ∈ state.delivered) :
    (state.jobs entry.index).kind ≠ .upkeep ∧
      (state.jobs entry.index).outcome.isFinished = true := by
  have hdone := (hsound.logged.finished entry.index).mpr (mem_map_of_mem hentry)
  have hkind : (state.jobs entry.index).kind ≠ .upkeep := by
    intro hupkeep
    have hidle : (state.jobs entry.index).delivery = .idle :=
      (hsound.standing.upkeep entry.index hupkeep).idle .delivery
    rw [hidle] at hdone
    cases hdone
  refine ⟨hkind, ?_⟩
  have hdelivery := (hsound.standing.fits entry.index hkind).deliveryFits
  cases hstage : (state.jobs entry.index).delivery with
  | finished _ =>
    rw [hstage] at hdelivery
    exact hdelivery
  | _ =>
    rw [hstage] at hdone
    cases hdone

theorem Sound.inOrder (hsound : Sound state) : InOrder state := by
  intro earlier entry later hsplit
  have hentry : entry ∈ state.delivered := by
    rw [hsplit]
    exact mem_append_right _ mem_cons_self
  obtain ⟨hkind, hsettled⟩ := hsound.outcome_of_delivered hentry
  obtain ⟨hfenced, hanswer⟩ := hsound.logged.answers entry hentry
  have hfits := hsound.standing.fits entry.index hkind
  refine ⟨hkind, ?_, ?_⟩
  · cases hchoice : entry.fenced with
    | true =>
      left
      intro index hindex houtcome
      exact hsound.logged.ordered earlier entry later hsplit hchoice index hindex houtcome
    | false =>
      right
      obtain ⟨hexempt, hmet, hadmitted⟩ := hfits.unfenced (hfenced.symm.trans hchoice)
      exact ⟨hexempt, hadmitted, hmet⟩
  intro hadmitted
  have houtcome := hfits.outcomeFits
  rw [Job.OutcomeFits] at houtcome
  cases hstage : (state.jobs entry.index).outcome with
  | finished _ =>
    rw [hstage] at houtcome
    obtain ⟨-, -, outcome, hvalue, hpart⟩ := houtcome
    refine ⟨(hpart hadmitted).1, fun value hok => ?_⟩
    rcases hanswer with hfailed | hown
    · cases hfailed.symm.trans hok
    apply (hpart hadmitted).2 value
    rw [← hok]
    exact Option.some.inj (hvalue.symm.trans hown)
  | _ =>
    rw [hstage] at hsettled
    cases hsettled

/-- Outcomes come in line order in every run, however jobs, publications, gate waits and a
failure interleave. -/
theorem outcomes_in_line_order [DecidableEq κ] {actions more : List (Action ε α κ)}
    {after : State ε α κ} (hrun : run State.step start actions = some state)
    (hmore : run State.step state more = some after) :
    InOrder state ∧
      (∀ failAt own, state.failure = some (failAt, own) →
        ∃ added, after.delivered = state.delivered ++ added ∧
          ∀ entry ∈ added, failAt < entry.index → entry.index ∉ own →
            entry.outcome = .error .sessionFailed) ∧
      (state.outstanding = (waiting state.jobs state.nextIndex).card ∧
        state.outstanding ≤ maxOutstanding) ∧
      (state.endsRun ++ pendingEnds state.jobs state.nextIndex).Perm (List.range state.nextEnd) ∧
      (∀ entry ∈ state.delivered, (state.jobs entry.index).ends = []) ∧
      (Quiet state → state.endsRun.Perm (List.range state.nextEnd) ∧
        ∀ index, (state.jobs index).kind ≠ .upkeep → index ∈ state.delivered.map (·.index)) := by
  have hsound := sound_run hrun
  refine ⟨hsound.inOrder, ?_, ⟨hsound.outstanding, hsound.bounded⟩, hsound.ended, ?_, ?_⟩
  · intro failAt own hfailure
    exact (run_after_failure hfailure hmore).2
  · intro entry hentry
    exact hsound.ends_of_settled (hsound.outcome_of_delivered hentry).2
  · intro hquiet
    refine ⟨hsound.endsRun_of_quiet hquiet, fun index hkind => ?_⟩
    exact (hsound.logged.finished index).mp (hsound.delivery_of_quiet hquiet hkind)

/-- A commit waits for its publication while the outcome of an exempt job passes it; then the
Session fails, and the read behind them gets `SessionFailed`. -/
def exampleActions : List (Action Unit Nat Nat) :=
  ([.enqueue false, .enqueue true, .enqueue false, .onLine, .onJobEnd, .admitKeys [0], .leave (.ok 7),
    .settle 0, .onLine, .leave (.ok 8), .settle 1, .onLine, .touch (some 0), .leave (.ok 9),
    .settle 2] : List (Action Unit Nat Nat)) ++ List.replicate 10 Action.tick ++
    [Action.fail (some 0) []]

def exampleRest : List (Action Unit Nat Nat) := .publish 0 :: List.replicate 18 .tick

theorem outcomes_in_line_order_example :
    ∃ state after, run State.step start exampleActions = some state ∧
      run State.step state exampleRest = some after ∧
      (state.delivered.map (·.index), after.delivered.map (·.index)) = ([1], [1, 0, 2]) ∧
      InOrder state ∧ ∃ added, after.delivered = state.delivered ++ added ∧
        ∀ entry ∈ added, (0 : Int) < entry.index → entry.index ∉ [] →
          entry.outcome = .error .sessionFailed := by
  have hruns : ((run State.step start exampleActions).bind fun state =>
      (run State.step state exampleRest).map fun after =>
        (state.failure, state.delivered.map (·.index), after.delivered.map (·.index))) =
      some (some (0, []), [1], [1, 0, 2]) := by decide
  obtain ⟨state, hstate, hrest⟩ := Option.bind_eq_some_iff.mp hruns
  obtain ⟨after, hafter, hlogs⟩ := Option.map_eq_some_iff.mp hrest
  obtain ⟨hfailure, hdelivered⟩ := Prod.mk.inj hlogs
  obtain ⟨horder, hpoisoned, -⟩ := outcomes_in_line_order hstate hafter
  exact ⟨state, after, hstate, hafter, hdelivered, horder, hpoisoned 0 [] hfailure⟩

end State

end Hummin.SessionLine
