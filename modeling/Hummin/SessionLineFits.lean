/-
How far the delivery of an outcome may lag behind the fence after its job: two ticks, while
the next delivery comes at least four ticks after the fence.
-/
import Hummin.SessionLine

namespace Hummin.SessionLine

open Option

/-- The tick the fence settles in, once the outcome is settled. -/
def Stage.fenceDue : Stage → Option Nat
  | .called tick => some (tick + 3)
  | .adopting tick => some (tick + 2)
  | .settling tick => some (tick + 1)
  | .finishing tick => some tick
  | .finished tick => some tick
  | _ => none

/-- The tick of a delivery, once the outcome is settled. -/
def Stage.deliveryDue : Stage → Option Nat
  | .choosing tick => some (tick + 4)
  | .called tick => some (tick + 3)
  | .adopting tick => some (tick + 2)
  | .settling tick => some (tick + 1)
  | .finishing tick => some tick
  | _ => none

/-- The fence chain of a job stands where the fence before it, `opened` in a tick, and the
outcome allow. -/
def FenceFits (opened : Option Nat) (settled : Bool) : Stage → Prop
  | .blocked => opened = none
  | .called _ => opened.isSome = true
  | .adopting _ => opened.isSome = true
  | .following => opened.isSome = true ∧ settled = false
  | .settling _ => opened.isSome = true ∧ settled = true
  | .finishing _ => opened.isSome = true ∧ settled = true
  | .finished tick => settled = true ∧ ∃ before ≤ tick, opened = some before
  | _ => False

/-- The delivery chain of a job stands where the fence before it and the outcome allow. -/
def DeliveryFits (now : Nat) (opened : Option Nat) (outcome : Stage) (fenced : Bool) : Stage → Prop
  | .idle => outcome = .idle
  | .choosing tick => outcome = .called tick ∨ (tick ≤ now ∧ outcome ≠ .idle)
  | .blocked => fenced = true ∧ opened = none
  | .called tick => fenced = true ∧ ∃ before, opened = some before ∧ before + 1 ≤ tick
  | .adopting tick => fenced = true ∧ ∃ before, opened = some before ∧ before + 2 ≤ tick
  | .following => fenced = true ∧ outcome.isFinished = false ∧
      ∃ before, opened = some before ∧ before + 2 ≤ now
  | .listening => fenced = false ∧ outcome.isFinished = false
  | .settling tick => fenced = true ∧ outcome.isFinished = true ∧
      ∃ before, opened = some before ∧ before + 3 ≤ tick
  | .finishing tick => outcome.isFinished = true ∧
      (fenced = true → ∃ before, opened = some before ∧ before + 4 ≤ tick)
  | .finished _ => outcome.isFinished = true

/-- The delivery comes at most two ticks after the fence. -/
def Lags (fence delivery : Stage) : Prop :=
  ∀ last tick, fence.fenceDue = some last → delivery.deliveryDue = some tick → tick ≤ last + 2

section

variable {now tick : Nat} {opened : Option Nat} {settled fenced : Bool}
  {outcome fence delivery : Stage}

variable {last : Nat}

/-- While the outcome is unsettled, the fence is two ticks away or more. -/
theorem FenceFits.le_fenceDue (hfence : FenceFits opened false fence)
    (hcurrent : ∀ tick, fence.tick? = some tick → now ≤ tick)
    (hlast : fence.fenceDue = some last) : now + 2 ≤ last := by
  cases fence with
  | called tick =>
    cases hlast
    have := hcurrent tick rfl
    omega
  | adopting tick =>
    cases hlast
    exact Nat.add_le_add_right (hcurrent tick rfl) 2
  | settling _ => cases hfence.2
  | finishing _ => cases hfence.2
  | finished _ => cases hfence.1
  | _ => cases hlast

/-- While the outcome is unsettled, the delivery is four ticks away or less. -/
theorem DeliveryFits.deliveryDue_le (hdelivery : DeliveryFits now opened outcome fenced delivery)
    (houtcome : outcome.isFinished = false) (hcalled : ∀ tick, outcome = .called tick → tick ≤ now)
    (hcurrent : ∀ tick, delivery.tick? = some tick → tick ≤ now + 1)
    (hlast : delivery.deliveryDue = some last) : last ≤ now + 4 := by
  cases delivery with
  | choosing tick =>
    cases hlast
    rcases hdelivery with heq | ⟨hle, -⟩
    · exact Nat.add_le_add_right (hcalled tick heq) 4
    · exact Nat.add_le_add_right hle 4
  | called tick =>
    cases hlast
    have := hcurrent tick rfl
    omega
  | adopting tick =>
    cases hlast
    have := hcurrent tick rfl
    omega
  | settling tick => cases houtcome.symm.trans hdelivery.2.1
  | finishing tick => cases houtcome.symm.trans hdelivery.1
  | _ => cases hlast

/-! ### The outcome settles -/

theorem FenceFits.onSettled (hfence : FenceFits opened false fence) :
    FenceFits opened true (fence.onSettled now) := by
  cases fence with
  | following => exact ⟨hfence.1, rfl⟩
  | settling _ => cases hfence.2
  | finishing _ => cases hfence.2
  | finished _ => cases hfence.1
  | listening => exact hfence.elim
  | _ => exact hfence

theorem DeliveryFits.onSettled (hdelivery : DeliveryFits now opened outcome fenced delivery)
    (houtcome : outcome.isFinished = false) (hran : outcome ≠ .idle)
    (hcalled : ∀ tick, outcome = .called tick → tick ≤ now) :
    DeliveryFits now opened (.finished now) fenced (delivery.onSettled now) := by
  cases delivery with
  | idle => exact absurd hdelivery hran
  | choosing tick =>
    refine .inr ⟨?_, nofun⟩
    rcases hdelivery with heq | ⟨hle, -⟩
    · exact hcalled tick heq
    · exact hle
  | following =>
    obtain ⟨hfenced, -, before, hopened, hle⟩ := hdelivery
    exact ⟨hfenced, rfl, before, hopened, Nat.succ_le_succ hle⟩
  | listening =>
    refine ⟨rfl, fun hfenced => ?_⟩
    cases hdelivery.1.symm.trans hfenced
  | settling tick => cases houtcome.symm.trans hdelivery.2.1
  | finishing tick => cases houtcome.symm.trans hdelivery.1
  | finished tick => rfl
  | _ => exact hdelivery

theorem lags_onSettled (hfence : FenceFits opened false fence)
    (hdelivery : DeliveryFits now opened outcome fenced delivery)
    (houtcome : outcome.isFinished = false) (hcalled : ∀ tick, outcome = .called tick → tick ≤ now)
    (hfenceCurrent : ∀ tick, fence.tick? = some tick → now ≤ tick)
    (hcurrent : ∀ tick, delivery.tick? = some tick → tick ≤ now + 1) :
    Lags (fence.onSettled now) (delivery.onSettled now) := by
  intro last tick hlast htick
  have hfenceLast : now + 2 ≤ last := by
    cases fence with
    | following =>
      cases hlast
      exact le_rfl
    | listening => exact hfence.elim
    | idle => exact hfence.elim
    | choosing _ => exact hfence.elim
    | blocked => cases hlast
    | _ => exact hfence.le_fenceDue hfenceCurrent hlast
  have hdeliveryTick : tick ≤ now + 4 := by
    cases delivery with
    | following =>
      cases htick
      omega
    | listening =>
      cases htick
      omega
    | idle => cases htick
    | blocked => cases htick
    | finished _ => cases htick
    | _ => exact hdelivery.deliveryDue_le houtcome hcalled hcurrent htick
  omega

/-! ### A chain goes on -/

theorem FenceFits.advance (hfence : FenceFits opened settled fence)
    (hnow : fence.tick? = some now) (hopened : ∀ before, opened = some before → before ≤ now) :
    FenceFits opened settled (Job.advance now settled fence).1 := by
  cases fence with
  | called _ => exact hfence
  | adopting _ =>
    cases settled with
    | true => exact ⟨hfence, rfl⟩
    | false => exact ⟨hfence, rfl⟩
  | settling _ => exact hfence
  | finishing _ =>
    obtain ⟨before, hbefore⟩ := isSome_iff_exists.mp hfence.1
    exact ⟨hfence.2, before, hopened before hbefore, hbefore⟩
  | idle => cases hnow
  | choosing _ => exact hfence.elim
  | _ => cases hnow

/-- A chain of the current tick that goes on is due when it was. -/
theorem fenceDue_advance (hfence : FenceFits opened settled fence) (hnow : fence.tick? = some now)
    (hlast : (Job.advance now settled fence).1.fenceDue = some last) :
    fence.fenceDue = some last := by
  cases fence with
  | called tick =>
    cases hnow
    exact hlast
  | adopting tick =>
    cases hnow
    cases settled with
    | true => exact hlast
    | false => cases hlast
  | settling tick =>
    cases hnow
    exact hlast
  | finishing tick =>
    cases hnow
    exact hlast
  | idle => cases hnow
  | choosing _ => exact hfence.elim
  | _ => cases hnow

theorem DeliveryFits.advance (hdelivery : DeliveryFits now opened outcome fenced delivery)
    (hchosen : ∀ tick, delivery ≠ .choosing tick) (hnow : delivery.tick? = some now) :
    DeliveryFits now opened outcome fenced (Job.advance now outcome.isFinished delivery).1 := by
  cases delivery with
  | called tick =>
    cases hnow
    obtain ⟨hfenced, before, hopened, hle⟩ := hdelivery
    exact ⟨hfenced, before, hopened, Nat.succ_le_succ hle⟩
  | adopting tick =>
    cases hnow
    obtain ⟨hfenced, before, hopened, hle⟩ := hdelivery
    rw [Job.advance]
    split
    · next hsettled => exact ⟨hfenced, hsettled, before, hopened, Nat.succ_le_succ hle⟩
    next hunsettled =>
      exact ⟨hfenced, Bool.eq_false_iff.mpr hunsettled, before, hopened, hle⟩
  | settling tick =>
    cases hnow
    obtain ⟨-, hsettled, before, hopened, hle⟩ := hdelivery
    exact ⟨hsettled, fun _ => ⟨before, hopened, Nat.succ_le_succ hle⟩⟩
  | finishing tick => exact hdelivery.1
  | choosing tick => exact absurd rfl (hchosen tick)
  | _ => cases hnow

theorem deliveryDue_advance (hchosen : ∀ tick, delivery ≠ .choosing tick)
    (hnow : delivery.tick? = some now)
    (hlast : (Job.advance now settled delivery).1.deliveryDue = some last) :
    delivery.deliveryDue = some last := by
  cases delivery with
  | called tick =>
    cases hnow
    exact hlast
  | adopting tick =>
    cases hnow
    cases settled with
    | true => exact hlast
    | false => cases hlast
  | settling tick =>
    cases hnow
    exact hlast
  | finishing tick => cases hlast
  | choosing tick => exact absurd rfl (hchosen tick)
  | _ => cases hnow

theorem advance_ne (hchosen : ∀ tick, delivery ≠ .choosing tick)
    (hnow : delivery.tick? = some now) :
    (Job.advance now settled delivery).1 ≠ .idle ∧
      ∀ tick, (Job.advance now settled delivery).1 ≠ .choosing tick := by
  cases delivery with
  | called _ => exact ⟨nofun, nofun⟩
  | adopting _ =>
    rw [Job.advance]
    split <;> exact ⟨nofun, nofun⟩
  | settling _ => exact ⟨nofun, nofun⟩
  | finishing _ => exact ⟨nofun, nofun⟩
  | choosing tick => exact absurd rfl (hchosen tick)
  | _ => cases hnow

theorem deliveryDue_le_of_tick (hcurrent : ∀ tick, delivery.tick? = some tick → tick ≤ now + 1)
    (hlast : delivery.deliveryDue = some last) : last ≤ now + 5 := by
  cases delivery with
  | choosing tick =>
    cases hlast
    exact Nat.add_le_add_right (hcurrent tick rfl) 4
  | called tick =>
    cases hlast
    have := hcurrent tick rfl
    omega
  | adopting tick =>
    cases hlast
    have := hcurrent tick rfl
    omega
  | settling tick =>
    cases hlast
    have := hcurrent tick rfl
    omega
  | finishing tick =>
    obtain rfl := some.inj hlast
    have := hcurrent tick rfl
    omega
  | _ => cases hlast

end

/-! ### Jobs -/

namespace Job

variable {ε α κ : Type} {job : Job ε α κ} {now : Nat} {opened : Option Nat}

/-- The part of a job's commit settled before its publication did, and then what waited for
the job's end ran. -/
def PublicationFits (job : Job ε α κ) : Prop :=
  match job.publication with
  | .idle => True
  | .blocked => True
  | .called _ => job.part.isSome = true
  | .finished _ => job.part.isSome = true ∧ job.ends = []
  | _ => False

/-- The outcome of a job comes from its line part, and from its part's publication when it
admitted a commit. -/
def OutcomeFits (job : Job ε α κ) : Prop :=
  match job.outcome with
  | .idle => job.publication = .idle
  | .called _ => job.publication = .idle ∧ ∃ result, job.line = .ran result
  | .adopting _ => job.publication ≠ .idle ∧ job.admitted = true ∧
      ∃ value, job.line = .ran (.ok value)
  | .following => job.publication ≠ .idle ∧ job.publication.isFinished = false ∧
      job.admitted = true ∧ ∃ value, job.line = .ran (.ok value)
  | .settling _ => job.publication.isFinished = true ∧ job.admitted = true ∧
      ∃ value, job.line = .ran (.ok value)
  | .finished _ => job.ends = [] ∧ (∃ result, job.line = .ran result) ∧
      ∃ outcome, job.value = some outcome ∧
        (job.admitted = true → job.part.isSome = true ∧
          ∀ value, outcome = .ok value → job.part = some (.ok ()))
  | _ => False

/-- What holds of a job with an outcome, in the tick `now`; `opened` is the tick the fence
before it settled in. -/
structure Fits (now : Nat) (opened : Option Nat) (job : Job ε α κ) : Prop where
  outcomeFits : OutcomeFits job
  publicationFits : PublicationFits job
  fenceFits : FenceFits opened job.outcome.isFinished job.fence
  deliveryFits : DeliveryFits now opened job.outcome job.fenced job.delivery
  lags : job.outcome.isFinished = true → Lags job.fence job.delivery
  /-- Only an exempt job is chosen for, and it is exempt when it met no unpublished writer. -/
  exempt : (∀ tick, job.delivery = .choosing tick → job.kind = .exempt) ∧
    (job.delivery = .idle → job.kind = .exempt)
  unfenced : job.fenced = false → job.kind = .exempt ∧ job.met = [] ∧ job.admitted = false
  hit : job.hit = false → job.met = []
  refused : ∀ failure, job.line = .left (.error failure) ∨ job.line = .ran (.error failure) →
    job.admitted = false

/-- A queued reaction runs in the current tick or the next. -/
def Current (now : Nat) (job : Job ε α κ) : Prop :=
  ∀ chain tick, (job.stage chain).tick? = some tick → now ≤ tick ∧ tick ≤ now + 1

section

variable (hfits : Fits now opened job)
include hfits

theorem Fits.mono {later : Nat} (hlater : now ≤ later) : Fits later opened job := by
  refine { hfits with deliveryFits := ?_ }
  have hdelivery := hfits.deliveryFits
  cases hstage : job.delivery with
  | choosing tick =>
    rw [hstage] at hdelivery
    exact hdelivery.imp_right fun hpast => ⟨le_trans hpast.1 hlater, hpast.2⟩
  | following =>
    rw [hstage] at hdelivery
    obtain ⟨hfenced, hunsettled, before, hopened, hle⟩ := hdelivery
    exact ⟨hfenced, hunsettled, before, hopened, le_trans hle hlater⟩
  | _ =>
    rw [hstage] at hdelivery
    exact hdelivery

theorem Fits.clearEnds : Fits now opened { job with ends := [] } := by
  refine { hfits with outcomeFits := ?_, publicationFits := ?_ }
  · have houtcome := hfits.outcomeFits
    rw [OutcomeFits] at houtcome ⊢
    dsimp only
    split at houtcome
    · exact houtcome
    · exact houtcome
    · exact houtcome
    · exact houtcome
    · exact houtcome
    · exact ⟨rfl, houtcome.2⟩
    · exact houtcome.elim
  have hpublication := hfits.publicationFits
  rw [PublicationFits] at hpublication ⊢
  dsimp only
  split at hpublication
  · trivial
  · trivial
  · exact hpublication
  · exact ⟨hpublication.1, rfl⟩
  · exact hpublication.elim

theorem Fits.settleOutcome (hcurrent : Current now job)
    (hunsettled : job.outcome.isFinished = false) (hnow : job.outcome.tick? = some now)
    (hends : job.ends = []) {result : Except (Failure ε) α} (hline : job.line = .ran result)
    {value : Except (Failure ε) α} {ended : List Nat}
    (hvalue : job.admitted = true → job.part.isSome = true ∧
      ∀ found, value = .ok found → job.part = some (.ok ())) :
    Fits now opened (job.settleOutcome now value ended).job := by
  have hran : job.outcome ≠ .idle := by
    intro hidle
    rw [hidle] at hnow
    cases hnow
  have hcalled : ∀ tick, job.outcome = .called tick → tick ≤ now := by
    intro tick heq
    rw [heq] at hnow
    exact le_of_eq (some.inj hnow)
  have hfence := hfits.fenceFits
  rw [hunsettled] at hfence
  have hexempt := hfits.exempt
  refine ⟨?_, hfits.publicationFits, hfence.onSettled,
    hfits.deliveryFits.onSettled hunsettled hran hcalled, fun _ => ?_, ⟨?_, ?_⟩, hfits.unfenced,
    hfits.hit, hfits.refused⟩
  · exact ⟨hends, ⟨result, hline⟩, value, rfl, hvalue⟩
  · apply lags_onSettled hfence hfits.deliveryFits hunsettled hcalled
    · exact fun tick htick => (hcurrent .fence tick htick).1
    · exact fun tick htick => (hcurrent .delivery tick htick).2
  · intro tick hchoosing
    change job.delivery.onSettled now = .choosing tick at hchoosing
    cases hdelivery : job.delivery with
    | choosing other => exact hexempt.1 other hdelivery
    | _ =>
      rw [hdelivery] at hchoosing
      cases hchoosing
  intro hidle
  change job.delivery.onSettled now = .idle at hidle
  cases hdelivery : job.delivery with
  | idle => exact hexempt.2 hdelivery
  | _ =>
    rw [hdelivery] at hidle
    cases hidle

/-- A stage of the outcome on its way leaves the other chains as they are. -/
theorem Fits.setOutcome {later : Job ε α κ} (stage : Stage)
    (hlater : later = { job with
      outcome := stage, publication := later.publication, ends := later.ends })
    (houtcomeFits : OutcomeFits later) (hpublicationFits : PublicationFits later)
    (hunsettled : job.outcome.isFinished = false) (hnotSettled : stage.isFinished = false)
    (hran : job.outcome ≠ .idle) (hstage : stage ≠ .idle)
    (hcalled : ∀ tick, job.outcome = .called tick → stage = .called tick ∨ tick ≤ now) :
    Fits now opened later := by
  have hdelivery := hfits.deliveryFits
  have hfence := hfits.fenceFits
  rw [hlater] at houtcomeFits hpublicationFits ⊢
  refine ⟨houtcomeFits, hpublicationFits, ?_, ?_, ?_, hfits.exempt, hfits.unfenced, hfits.hit,
    hfits.refused⟩
  · dsimp only
    rw [hnotSettled]
    rw [hunsettled] at hfence
    exact hfence
  · dsimp only
    cases hstored : job.delivery with
    | idle =>
      rw [hstored] at hdelivery
      exact absurd hdelivery hran
    | choosing tick =>
      rw [hstored] at hdelivery
      rcases hdelivery with heq | ⟨hle, -⟩
      · exact (hcalled tick heq).imp_right fun hle => ⟨hle, hstage⟩
      · exact .inr ⟨hle, hstage⟩
    | following =>
      rw [hstored] at hdelivery
      exact ⟨hdelivery.1, hnotSettled, hdelivery.2.2⟩
    | listening =>
      rw [hstored] at hdelivery
      exact ⟨hdelivery.1, hnotSettled⟩
    | settling tick =>
      rw [hstored] at hdelivery
      cases hunsettled.symm.trans hdelivery.2.1
    | finishing tick =>
      rw [hstored] at hdelivery
      cases hunsettled.symm.trans hdelivery.1
    | finished tick =>
      rw [hstored] at hdelivery
      cases hunsettled.symm.trans hdelivery
    | _ =>
      rw [hstored] at hdelivery
      exact hdelivery
  · intro hsettled
    cases hnotSettled.symm.trans hsettled

end

section Equations

variable {tick : Nat} {failure : Failure ε} {value : α}

section

variable (hstage : job.outcome = .called tick)
include hstage

theorem runOutcome_error
    (hline : job.line = .ran (.error failure)) :
    job.runOutcome now = { job with ends := [] }.settleOutcome now (.error failure) job.ends := by
  cases job
  cases hstage
  cases hline
  rfl

theorem runOutcome_admitted
    (hline : job.line = .ran (.ok value)) (hadmitted : job.admitted = true) :
    job.runOutcome now =
      { job := { job with
          publication := if job.part.isSome then .called (now + 1) else .blocked
          outcome := .adopting (now + 1) }
        queued := (if job.part.isSome then [.publication] else []) ++ [.outcome]
        ended := [] } := by
  cases job
  cases hstage
  cases hline
  cases hadmitted
  rfl

theorem runOutcome_plain
    (hline : job.line = .ran (.ok value)) (hadmitted : job.admitted = false) :
    job.runOutcome now = { job with ends := [] }.settleOutcome now (.ok value) job.ends := by
  cases job
  cases hstage
  cases hline
  cases hadmitted
  rfl

end

theorem runOutcome_adopting (hstage : job.outcome = .adopting tick) :
    job.runOutcome now = if job.publication.isFinished then
        ⟨{ job with outcome := .settling (now + 1) }, [.outcome], []⟩
      else ⟨{ job with outcome := .following }, [], []⟩ := by
  cases job
  cases hstage
  rfl

theorem runOutcome_settling (hstage : job.outcome = .settling tick)
    (hline : job.line = .ran (.ok value)) :
    job.runOutcome now = job.settleOutcome now (job.publishedValue value) [] := by
  cases job
  cases hstage
  cases hline
  rfl

end Equations

/-- The ways the outcome chain goes on in its tick. -/
theorem Fits.runOutcome_cases (hfits : Fits now opened job) (hnow : job.outcome.tick? = some now) :
    (∃ result value, job.line = .ran result ∧
      job.runOutcome now = { job with ends := [] }.settleOutcome now value job.ends ∧
      job.admitted = false ∧ job.outcome = .called now) ∨
    (∃ value, job.line = .ran (.ok value) ∧ job.admitted = true ∧ job.outcome = .called now ∧
      job.publication = .idle ∧ job.runOutcome now =
        { job := { job with
            publication := if job.part.isSome then .called (now + 1) else .blocked
            outcome := .adopting (now + 1) }
          queued := (if job.part.isSome then [.publication] else []) ++ [.outcome]
          ended := [] }) ∨
    (job.outcome = .adopting now ∧ job.runOutcome now = if job.publication.isFinished then
        ⟨{ job with outcome := .settling (now + 1) }, [.outcome], []⟩
      else ⟨{ job with outcome := .following }, [], []⟩) ∨
    (∃ value, job.line = .ran (.ok value) ∧ job.outcome = .settling now ∧
      job.publication.isFinished = true ∧
      job.runOutcome now = job.settleOutcome now (job.publishedValue value) []) := by
  have houtcome := hfits.outcomeFits
  rw [OutcomeFits] at houtcome
  obtain ⟨stage, hstage⟩ : ∃ stage, job.outcome = stage := ⟨_, rfl⟩
  cases stage with
  | called tick =>
    rw [hstage] at hnow houtcome
    cases hnow
    obtain ⟨hidle, result, hline⟩ := houtcome
    cases result with
    | error failure =>
      left
      exact ⟨_, _, hline, runOutcome_error hstage hline, hfits.refused failure (.inr hline), hstage⟩
    | ok value =>
      by_cases hadmitted : job.admitted = true
      · right; left
        exact ⟨value, hline, hadmitted, hstage, hidle, runOutcome_admitted hstage hline hadmitted⟩
      left
      rw [Bool.not_eq_true] at hadmitted
      exact ⟨_, _, hline, runOutcome_plain hstage hline hadmitted, hadmitted, hstage⟩
  | adopting tick =>
    rw [hstage] at hnow
    cases hnow
    exact .inr (.inr (.inl ⟨hstage, runOutcome_adopting hstage⟩))
  | settling tick =>
    rw [hstage] at hnow houtcome
    cases hnow
    obtain ⟨hfinished, -, value, hline⟩ := houtcome
    exact .inr (.inr (.inr ⟨value, hline, hstage, hfinished, runOutcome_settling hstage hline⟩))
  | choosing _ =>
    rw [hstage] at houtcome
    exact houtcome.elim
  | finishing _ =>
    rw [hstage] at houtcome
    exact houtcome.elim
  | _ =>
    rw [hstage] at hnow
    cases hnow

theorem isFinished_eq_false_of_tick {stage : Stage} {tick : Nat} (htick : stage.tick? = some tick) :
    stage.isFinished = false := by
  cases stage with
  | finished _ => cases htick
  | _ => rfl

section

variable (hfits : Fits now opened job)

include hfits

theorem Fits.runOutcome (hcurrent : Current now job)
    (hnow : job.outcome.tick? = some now) : Fits now opened (job.runOutcome now).job := by
  have hunsettled := isFinished_eq_false_of_tick hnow
  have hran : job.outcome ≠ .idle := by
    intro hidle
    rw [hidle] at hnow
    cases hnow
  have hcalled : ∀ (stage : Stage) (tick : Nat), job.outcome = .called tick →
      stage = .called tick ∨ tick ≤ now := by
    intro stage tick heq
    rw [heq] at hnow
    exact .inr (le_of_eq (some.inj hnow))
  rcases hfits.runOutcome_cases hnow with ⟨result, value, hline, heq, hadmitted, -⟩ |
    ⟨value, hline, hadmitted, -, -, heq⟩ | ⟨hstage, heq⟩ | ⟨value, hline, hstage, hfinished, heq⟩
  · rw [heq]
    have hcleared : Current now { job with ends := [] } := hcurrent
    apply hfits.clearEnds.settleOutcome hcleared hunsettled hnow rfl hline
    exact fun hcommit => absurd hcommit (Bool.eq_false_iff.mp hadmitted)
  · rw [heq]
    apply hfits.setOutcome (.adopting (now + 1)) rfl ?_ ?_ hunsettled rfl hran nofun (hcalled _)
    · refine ⟨?_, hadmitted, value, hline⟩
      split <;> exact nofun
    cases hpart : job.part with
    | none => exact trivial
    | some part =>
      rw [PublicationFits]
      rfl
  · have houtcome := hfits.outcomeFits
    rw [OutcomeFits, hstage] at houtcome
    rw [heq]
    split
    next hfinished =>
      exact hfits.setOutcome (.settling (now + 1)) rfl ⟨hfinished, houtcome.2⟩
        hfits.publicationFits hunsettled rfl hran nofun (hcalled _)
    rename_i hunfinished
    exact hfits.setOutcome .following rfl
      ⟨houtcome.1, Bool.eq_false_iff.mpr hunfinished, houtcome.2⟩
      hfits.publicationFits hunsettled rfl hran nofun (hcalled _)
  rw [heq]
  have hpublication := hfits.publicationFits
  rw [PublicationFits] at hpublication
  cases hpublished : job.publication with
  | finished _ =>
    rw [hpublished] at hpublication
    apply hfits.settleOutcome hcurrent hunsettled hnow hpublication.2 hline
    intro _
    refine ⟨hpublication.1, fun found hfound => ?_⟩
    obtain ⟨part, hpart⟩ := isSome_iff_exists.mp hpublication.1
    rw [publishedValue, hpart] at hfound
    rw [hpart]
    cases part with
    | error failure => cases hfound
    | ok _ => rfl
  | _ =>
    rw [hpublished] at hfinished
    cases hfinished

theorem Fits.exists_ran (hran : job.outcome ≠ .idle) : ∃ result, job.line = .ran result := by
  have houtcome := hfits.outcomeFits
  rw [OutcomeFits] at houtcome
  split at houtcome
  · next hidle => exact absurd hidle hran
  · exact houtcome.2
  · exact ⟨_, houtcome.2.2.choose_spec⟩
  · exact ⟨_, houtcome.2.2.2.choose_spec⟩
  · exact ⟨_, houtcome.2.2.choose_spec⟩
  · exact houtcome.2.1
  · exact houtcome.elim

theorem Fits.runPublication (hnow : job.publication.tick? = some now) : Fits now opened
    (job.runPublication now).job := by
  have hpublication := hfits.publicationFits
  have houtcome := hfits.outcomeFits
  have hpart : job.part.isSome = true := by
    rw [PublicationFits] at hpublication
    cases hstage : job.publication with
    | called _ =>
      rw [hstage] at hpublication
      exact hpublication
    | idle =>
      rw [hstage] at hnow
      cases hnow
    | blocked =>
      rw [hstage] at hnow
      cases hnow
    | finished _ =>
      rw [hstage] at hnow
      cases hnow
    | _ =>
      rw [hstage] at hpublication
      exact hpublication.elim
  have hnotIdle : job.publication ≠ .idle := by
    intro hidle
    rw [hidle] at hnow
    cases hnow
  obtain ⟨stage, hstage⟩ : ∃ stage, job.outcome = stage := ⟨_, rfl⟩
  rw [OutcomeFits, hstage] at houtcome
  have hsame (hne : stage ≠ .following) : (job.runPublication now).job =
      { job with publication := .finished now, ends := [] } := by
    rw [Job.runPublication]
    rw [if_neg (hstage ▸ hne)]
  cases stage with
  | following =>
    obtain ⟨-, -, hadmitted, hline⟩ := houtcome
    have hlater : (job.runPublication now).job = { job with
        publication := .finished now, ends := [], outcome := .settling (now + 1) } := by
      rw [Job.runPublication]
      rw [if_pos hstage]
    rw [hlater]
    refine hfits.setOutcome (.settling (now + 1)) rfl ?_ ?_ ?_ rfl ?_ nofun ?_
    · exact ⟨rfl, hadmitted, hline⟩
    · exact ⟨hpart, rfl⟩
    · rw [hstage]
      rfl
    · rw [hstage]
      exact nofun
    intro tick heq
    rw [hstage] at heq
    cases heq
  | idle => exact absurd houtcome hnotIdle
  | called _ => exact absurd houtcome.1 hnotIdle
  | adopting _ =>
    rw [hsame nofun]
    refine { hfits with outcomeFits := ?_, publicationFits := ⟨hpart, rfl⟩ }
    rw [OutcomeFits]
    rw [hstage]
    exact ⟨nofun, houtcome.2⟩
  | choosing _ => exact houtcome.elim
  | blocked => exact houtcome.elim
  | listening => exact houtcome.elim
  | finishing _ => exact houtcome.elim
  | _ =>
    rw [hsame nofun]
    refine { hfits with outcomeFits := ?_, publicationFits := ⟨hpart, rfl⟩ }
    rw [OutcomeFits]
    rw [hstage]
    exact ⟨rfl, houtcome.2⟩

theorem Fits.runFence (hnow : job.fence.tick? = some now)
    (hopened : ∀ before, opened = some before → before ≤ now) :
    Fits now opened (job.runFence now).job := by
  have hlater : (job.runFence now).job =
      { job with fence := (advance now job.outcome.isFinished job.fence).1 } := rfl
  rw [hlater]
  refine { hfits with fenceFits := hfits.fenceFits.advance hnow hopened, lags := fun hsettled => ?_ }
  intro last tick hlast htick
  exact hfits.lags hsettled last tick (fenceDue_advance hfits.fenceFits hnow hlast) htick

/-- A chosen delivery comes no later than the choice allowed. -/
theorem Fits.choose (hchoosing : job.delivery = .choosing now)
    {stage : Stage} {fenced : Bool}
    (hdelivery : DeliveryFits now opened job.outcome fenced stage)
    (hdue : ∀ tick, stage.deliveryDue = some tick → tick ≤ now + 4)
    (hstage : stage ≠ .idle ∧ ∀ tick, stage ≠ .choosing tick)
    (hunfenced : fenced = false → job.met = [] ∧ job.admitted = false) :
    Fits now opened { job with fenced := fenced, delivery := stage } := by
  refine { hfits with
    deliveryFits := hdelivery
    lags := fun hsettled => ?_
    exempt := ⟨fun tick heq => absurd heq (hstage.2 tick), fun heq => absurd heq hstage.1⟩
    unfenced := fun hfenced => ⟨hfits.exempt.1 now hchoosing, hunfenced hfenced⟩ }
  intro last tick hlast htick
  have hold : job.delivery.deliveryDue = some (now + 4) := by
    rw [hchoosing]
    rfl
  exact le_trans (hdue tick htick) (hfits.lags hsettled last (now + 4) hlast hold)

theorem Fits.runDelivery (hnow : job.delivery.tick? = some now)
    (hopened : ∀ before, opened = some before → before ≤ now) :
    Fits now opened (job.runDelivery now opened.isSome).job := by
  by_cases hchoosing : ∃ tick, job.delivery = .choosing tick
  · obtain ⟨tick, htick⟩ := hchoosing
    have hchosen : job.delivery = .choosing now := by
      rw [htick] at hnow ⊢
      rw [some.inj hnow]
    rw [Job.runDelivery, hchosen]
    dsimp only
    split
    · cases opened with
      | none =>
        rw [isSome_none, if_neg Bool.false_ne_true]
        exact hfits.choose hchosen ⟨rfl, rfl⟩ nofun ⟨nofun, nofun⟩ nofun
      | some before =>
        rw [isSome_some, if_pos rfl]
        refine hfits.choose hchosen ⟨rfl, before, rfl, Nat.succ_le_succ (hopened before rfl)⟩ ?_
          ⟨nofun, nofun⟩ nofun
        intro tick hdue
        cases hdue
        exact le_rfl
    rename_i hunfenced
    rw [isFenced, Bool.or_eq_true, not_or, Bool.not_eq_true] at hunfenced
    have hfree : job.met = [] ∧ job.admitted = false := by
      refine ⟨hfits.hit hunfenced.1, ?_⟩
      have hdelivery := hfits.deliveryFits
      rw [hchosen] at hdelivery
      have hran : job.outcome ≠ .idle := by
        rcases hdelivery with heq | ⟨-, hran⟩
        · rw [heq]
          exact nofun
        · exact hran
      obtain ⟨result, hline⟩ := hfits.exists_ran hran
      rw [hline] at hunfenced
      cases result with
      | error failure => exact hfits.refused failure (.inr hline)
      | ok _ => exact Bool.eq_false_iff.mpr hunfenced.2
    split
    next hsettled =>
      refine hfits.choose hchosen ⟨hsettled, nofun⟩ ?_ ⟨nofun, nofun⟩ fun _ => hfree
      intro tick hdue
      cases hdue
      omega
    next hunsettled =>
      exact hfits.choose hchosen ⟨rfl, Bool.eq_false_iff.mpr hunsettled⟩ nofun ⟨nofun, nofun⟩
        fun _ => hfree
  have hchosen : ∀ tick, job.delivery ≠ .choosing tick := fun tick heq => hchoosing ⟨tick, heq⟩
  have hlater : (job.runDelivery now opened.isSome).job =
      { job with delivery := (advance now job.outcome.isFinished job.delivery).1 } := by
    rw [Job.runDelivery]
    split
    · next tick htick => exact absurd htick (hchosen tick)
    · rfl
  rw [hlater]
  have hnext : (advance now job.outcome.isFinished job.delivery).1 ≠ .idle ∧
      ∀ tick, (advance now job.outcome.isFinished job.delivery).1 ≠ .choosing tick :=
    advance_ne hchosen hnow
  refine { hfits with
    deliveryFits := hfits.deliveryFits.advance hchosen hnow
    lags := fun hsettled => ?_
    exempt := ⟨fun tick heq => absurd heq (hnext.2 tick), fun heq => absurd heq hnext.1⟩ }
  intro last tick hlast htick
  exact hfits.lags hsettled last tick hlast (deliveryDue_advance hchosen hnow htick)

end

/-- The fence before the job settles in the current tick. -/
theorem Fits.open_ (hfits : Fits now none job) (hcurrent : Current now job) :
    Fits now (some now) (job.open_ now) := by
  have hblocked : job.fence = .blocked := by
    have hfence := hfits.fenceFits
    cases hstage : job.fence with
    | blocked => rfl
    | called _ =>
      rw [hstage] at hfence
      cases hfence
    | adopting _ =>
      rw [hstage] at hfence
      cases hfence
    | following =>
      rw [hstage] at hfence
      cases hfence.1
    | settling _ =>
      rw [hstage] at hfence
      cases hfence.1
    | finishing _ =>
      rw [hstage] at hfence
      cases hfence.1
    | finished _ =>
      rw [hstage] at hfence
      obtain ⟨-, _, -, hnone⟩ := hfence
      cases hnone
    | _ =>
      rw [hstage] at hfence
      exact hfence.elim
  have hdelivery := hfits.deliveryFits
  have hlater : job.open_ now = { job with
      fence := .called (now + 1)
      delivery := if job.delivery = .blocked then .called (now + 1) else job.delivery } := by
    rw [Job.open_, if_pos hblocked]
  have hexempt := hfits.exempt
  rw [hlater]
  by_cases hwaits : job.delivery = .blocked
  · rw [if_pos hwaits]
    rw [hwaits] at hdelivery
    refine { hfits with
      fenceFits := rfl
      deliveryFits := ⟨hdelivery.1, now, rfl, le_rfl⟩
      lags := fun _ last tick hlast htick => ?_
      exempt := ⟨nofun, nofun⟩ }
    cases hlast
    cases htick
    omega
  rw [if_neg hwaits]
  refine { hfits with
    fenceFits := rfl
    deliveryFits := ?_
    lags := fun _ last tick hlast htick => ?_ }
  · dsimp only
    cases hstage : job.delivery with
    | blocked => exact absurd hstage hwaits
    | called _ =>
      rw [hstage] at hdelivery
      obtain ⟨-, _, hnone, -⟩ := hdelivery
      cases hnone
    | adopting _ =>
      rw [hstage] at hdelivery
      obtain ⟨-, _, hnone, -⟩ := hdelivery
      cases hnone
    | following =>
      rw [hstage] at hdelivery
      obtain ⟨-, -, _, hnone, -⟩ := hdelivery
      cases hnone
    | settling _ =>
      rw [hstage] at hdelivery
      obtain ⟨-, -, _, hnone, -⟩ := hdelivery
      cases hnone
    | finishing _ =>
      rw [hstage] at hdelivery
      refine ⟨hdelivery.1, fun hfenced => ?_⟩
      obtain ⟨_, hnone, -⟩ := hdelivery.2 hfenced
      cases hnone
    | _ =>
      rw [hstage] at hdelivery
      exact hdelivery
  cases hlast
  have hbound : ∀ other, job.delivery.tick? = some other → other ≤ now + 1 :=
    fun other hother => (hcurrent .delivery other hother).2
  have hdue : tick ≤ now + 5 := deliveryDue_le_of_tick hbound htick
  omega

end Job

end Hummin.SessionLine
