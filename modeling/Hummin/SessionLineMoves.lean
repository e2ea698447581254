/-
A chain is queued exactly while its stage has a tick: what a reaction queues, and what it
leaves.
-/
import Hummin.SessionLineFits

namespace Hummin.SessionLine

open List

namespace Stage

variable {stage : Stage} {now : Nat}

theorem tick?_onSettled_of_waits (hwaits : stage.waits = true) :
    (stage.onSettled now).tick? = some (now + 1) ∧ stage.tick? = none := by
  cases stage with
  | following => exact ⟨rfl, rfl⟩
  | listening => exact ⟨rfl, rfl⟩
  | _ => cases hwaits

theorem onSettled_of_not_waits (hwaits : stage.waits = false) : stage.onSettled now = stage := by
  cases stage with
  | following => cases hwaits
  | listening => cases hwaits
  | _ => rfl

end Stage

namespace Job

variable {ε α κ : Type} {job later : Job ε α κ} {now : Nat} {running : Option Chain}
  {queued : List Chain}

/-- The chains a change of a job queues have the next tick, and were not queued but for the
one that runs; the others keep their tick, and the one that runs has none. -/
structure Moves (now : Nat) (running : Option Chain) (job later : Job ε α κ)
    (queued : List Chain) : Prop where
  distinct : queued.Nodup
  next : ∀ chain ∈ queued, (later.stage chain).tick? = some (now + 1) ∧
    (running ≠ some chain → (job.stage chain).tick? = none)
  kept : ∀ chain, chain ∉ queued → running ≠ some chain →
    (later.stage chain).tick? = (job.stage chain).tick?
  ran : ∀ chain, chain ∉ queued → running = some chain → (later.stage chain).tick? = none

theorem moves_none (hstage : ∀ chain, (later.stage chain).tick? = (job.stage chain).tick?) :
    Moves now none job later [] :=
  ⟨nodup_nil, nofun, fun chain _ _ => hstage chain, nofun⟩

/-- A chain goes on by itself. -/
theorem moves_single {chain : Chain} {isQueued : Bool}
    (hothers : ∀ other, other ≠ chain → later.stage other = job.stage other)
    (hstage : (later.stage chain).tick? = if isQueued then some (now + 1) else none) :
    Moves now (some chain) job later (if isQueued then [chain] else []) := by
  cases isQueued with
  | true =>
    refine ⟨pairwise_singleton _ _, ?_, ?_, ?_⟩
    · intro other hother
      obtain rfl := mem_singleton.mp hother
      exact ⟨hstage, fun hne => absurd rfl hne⟩
    · intro other _ hne
      rw [hothers other fun heq => hne (congrArg some heq.symm)]
    intro other hnot heq
    cases heq
    exact absurd (mem_singleton.mpr rfl) hnot
  | false =>
    refine ⟨nodup_nil, nofun, ?_, ?_⟩
    · intro other _ hne
      rw [hothers other fun heq => hne (congrArg some heq.symm)]
    intro other _ heq
    cases heq
    exact hstage

theorem mem_two {first second chain : Chain} {isFirst isSecond : Prop} [Decidable isFirst]
    [Decidable isSecond] :
    chain ∈ ((if isFirst then [first] else []) ++ if isSecond then [second] else []) ↔
      (isFirst ∧ chain = first) ∨ (isSecond ∧ chain = second) := by
  rw [mem_append]
  constructor
  · rintro (hfirst | hsecond)
    · split at hfirst
      · next htrue => exact .inl ⟨htrue, mem_singleton.mp hfirst⟩
      · cases hfirst
    split at hsecond
    · next htrue => exact .inr ⟨htrue, mem_singleton.mp hsecond⟩
    · cases hsecond
  rintro (⟨htrue, rfl⟩ | ⟨htrue, rfl⟩)
  · rw [if_pos htrue]
    exact .inl mem_cons_self
  rw [if_pos htrue]
  exact .inr mem_cons_self

theorem nodup_two {first second : Chain} {isFirst isSecond : Prop} [Decidable isFirst]
    [Decidable isSecond] (hne : first ≠ second) :
    ((if isFirst then [first] else []) ++ if isSecond then [second] else []).Nodup := by
  split
  · split
    · exact nodup_cons.mpr ⟨fun hmem => hne (mem_singleton.mp hmem),
        pairwise_singleton _ _⟩
    · exact pairwise_singleton _ _
  split
  · exact pairwise_singleton _ _
  · exact nodup_nil

theorem moves_settleOutcome {value : Except (Failure ε) α} {ended : List Nat} :
    Moves now (some .outcome) job (job.settleOutcome now value ended).job
      (job.settleOutcome now value ended).queued := by
  have hmem : ∀ chain, chain ∈ (job.settleOutcome now value ended).queued ↔
      (job.fence.waits = true ∧ chain = .fence) ∨ (job.delivery.waits = true ∧ chain = .delivery) :=
    fun chain => mem_two
  refine ⟨nodup_two nofun, ?_, ?_, ?_⟩
  · intro chain hchain
    rcases (hmem chain).mp hchain with ⟨hwaits, rfl⟩ | ⟨hwaits, rfl⟩
    · obtain ⟨hlater, hbefore⟩ := Stage.tick?_onSettled_of_waits hwaits
      exact ⟨hlater, fun _ => hbefore⟩
    obtain ⟨hlater, hbefore⟩ := Stage.tick?_onSettled_of_waits hwaits
    exact ⟨hlater, fun _ => hbefore⟩
  · intro chain hnot hne
    cases chain with
    | outcome => exact absurd rfl hne
    | publication => rfl
    | fence =>
      have hwaits : job.fence.waits = false :=
        Bool.eq_false_iff.mpr fun hwaits => hnot ((hmem _).mpr (.inl ⟨hwaits, rfl⟩))
      exact congrArg Stage.tick? (Stage.onSettled_of_not_waits hwaits)
    | delivery =>
      have hwaits : job.delivery.waits = false :=
        Bool.eq_false_iff.mpr fun hwaits => hnot ((hmem _).mpr (.inr ⟨hwaits, rfl⟩))
      exact congrArg Stage.tick? (Stage.onSettled_of_not_waits hwaits)
  intro chain _ heq
  cases heq
  rfl

variable {opened : Option Nat}

theorem Fits.moves_runOutcome (hfits : Fits now opened job) (hnow : job.outcome.tick? = some now) :
    Moves now (some .outcome) job (job.runOutcome now).job (job.runOutcome now).queued := by
  rcases hfits.runOutcome_cases hnow with ⟨result, value, -, heq, -, -⟩ |
    ⟨value, hline, hadmitted, -, hidle, heq⟩ | ⟨hstage, heq⟩ | ⟨value, hline, hstage, hfinished, heq⟩
  · rw [heq]
    have hmoves := @moves_settleOutcome _ _ _ { job with ends := [] } now value job.ends
    exact ⟨hmoves.distinct, hmoves.next, hmoves.kept, hmoves.ran⟩
  · rw [heq]
    have hmem : ∀ chain, chain ∈ (if job.part.isSome = true then [Chain.publication] else []) ++
        [Chain.outcome] ↔ (job.part.isSome = true ∧ chain = .publication) ∨
          (True ∧ chain = .outcome) := fun chain => @mem_two _ _ _ _ True _ _
    refine ⟨@nodup_two .publication .outcome _ True _ _ nofun, ?_, ?_, ?_⟩
    · intro chain hchain
      rcases (hmem chain).mp hchain with ⟨hsome, rfl⟩ | ⟨-, rfl⟩
      · refine ⟨?_, fun _ => ?_⟩
        · change Stage.tick? (if job.part.isSome = true then _ else _) = _
          rw [if_pos hsome]
          rfl
        change job.publication.tick? = none
        rw [hidle]
        rfl
      · exact ⟨rfl, fun hne => absurd rfl hne⟩
    · intro chain hnot hne
      cases chain with
      | outcome => exact absurd rfl hne
      | publication =>
        have hnone : ¬ job.part.isSome = true := fun hsome => hnot ((hmem _).mpr (.inl ⟨hsome, rfl⟩))
        change Stage.tick? (if job.part.isSome = true then _ else _) = job.publication.tick?
        rw [if_neg hnone, hidle]
        rfl
      | _ => rfl
    intro chain hnot heq
    cases heq
    exact absurd ((hmem _).mpr (.inr ⟨trivial, rfl⟩)) hnot
  · rw [heq]
    split
    · exact @moves_single _ _ _ _ _ _ .outcome true
        (fun other hother => by cases other <;> first | rfl | exact absurd rfl hother) rfl
    exact @moves_single _ _ _ _ _ _ .outcome false
      (fun other hother => by cases other <;> first | rfl | exact absurd rfl hother) rfl
  · rw [heq]
    exact moves_settleOutcome

theorem moves_runPublication :
    Moves now (some .publication) job (job.runPublication now).job
      (job.runPublication now).queued := by
  have hmem : ∀ chain, chain ∈ (job.runPublication now).queued ↔
      job.outcome = .following ∧ chain = .outcome := by
    intro chain
    rw [Job.runPublication]
    split
    next hfollowing =>
      rw [mem_singleton]
      exact ⟨fun heq => ⟨hfollowing, heq⟩, fun hboth => hboth.2⟩
    · next hnot => exact ⟨by rintro ⟨⟩, fun hboth => absurd hboth.1 hnot⟩
  refine ⟨?_, ?_, ?_, ?_⟩
  · rw [Job.runPublication]
    split
    · exact pairwise_singleton _ _
    · exact nodup_nil
  · intro chain hchain
    obtain ⟨hfollowing, rfl⟩ := (hmem chain).mp hchain
    refine ⟨?_, fun _ => ?_⟩
    · change Stage.tick? (if job.outcome = .following then _ else _) = _
      rw [if_pos hfollowing]
      rfl
    change job.outcome.tick? = none
    rw [hfollowing]
    rfl
  · intro chain hnot hne
    cases chain with
    | outcome =>
      have hnone : job.outcome ≠ .following := fun heq => hnot ((hmem _).mpr ⟨heq, rfl⟩)
      change Stage.tick? (if job.outcome = .following then _ else _) = job.outcome.tick?
      rw [if_neg hnone]
    | publication => exact absurd rfl hne
    | _ => rfl
  intro chain _ heq
  cases heq
  rfl

theorem tick?_advance {stage : Stage} {settled : Bool} (hchosen : ∀ tick, stage ≠ .choosing tick)
    (hnow : stage.tick? = some now) :
    (advance now settled stage).1.tick? =
      if (advance now settled stage).2 then some (now + 1) else none := by
  cases stage with
  | called _ => rfl
  | adopting _ =>
    rw [advance]
    split <;> rfl
  | settling _ => rfl
  | finishing _ => rfl
  | choosing tick => exact absurd rfl (hchosen tick)
  | _ => cases hnow

theorem Fits.moves_runFence (hfits : Fits now opened job) (hnow : job.fence.tick? = some now) :
    Moves now (some .fence) job (job.runFence now).job (job.runFence now).queued := by
  have hchosen : ∀ tick, job.fence ≠ .choosing tick := by
    intro tick heq
    have hfence := hfits.fenceFits
    rw [heq] at hfence
    exact hfence
  apply moves_single
  · intro other hother
    cases other with
    | fence => exact absurd rfl hother
    | _ => rfl
  · exact tick?_advance hchosen hnow

theorem moves_runDelivery {opened : Bool} (hnow : job.delivery.tick? = some now) :
    Moves now (some .delivery) job (job.runDelivery now opened).job
      (job.runDelivery now opened).queued := by
  have hothers : ∀ (fenced : Bool) (stage : Stage) (other : Chain), other ≠ .delivery →
      Job.stage { job with fenced := fenced, delivery := stage } other = job.stage other := by
    intro fenced stage other hother
    cases other with
    | delivery => exact absurd rfl hother
    | _ => rfl
  rw [Job.runDelivery]
  split
  · split
    · split
      · exact @moves_single _ _ _ _ _ _ .delivery true (hothers _ _) rfl
      · exact @moves_single _ _ _ _ _ _ .delivery false (hothers _ _) rfl
    split
    · exact @moves_single _ _ _ _ _ _ .delivery true (hothers _ _) rfl
    · exact @moves_single _ _ _ _ _ _ .delivery false (hothers _ _) rfl
  next hchosen =>
    apply moves_single (hothers job.fenced _)
    exact tick?_advance hchosen hnow

theorem moves_open : Moves now none job (job.open_ now) job.opens := by
  have hmem : ∀ chain, chain ∈ job.opens ↔
      (job.fence = .blocked ∧ chain = .fence) ∨ (job.delivery = .blocked ∧ chain = .delivery) := by
    intro chain
    exact mem_two
  refine ⟨?_, ?_, ?_, nofun⟩
  · exact nodup_two nofun
  · intro chain hchain
    rcases (hmem chain).mp hchain with ⟨hblocked, rfl⟩ | ⟨hblocked, rfl⟩
    · refine ⟨?_, fun _ => ?_⟩
      · change Stage.tick? (if job.fence = .blocked then _ else _) = _
        rw [if_pos hblocked]
        rfl
      change job.fence.tick? = none
      rw [hblocked]
      rfl
    refine ⟨?_, fun _ => ?_⟩
    · change Stage.tick? (if job.delivery = .blocked then _ else _) = _
      rw [if_pos hblocked]
      rfl
    change job.delivery.tick? = none
    rw [hblocked]
    rfl
  intro chain hnot _
  cases chain with
  | fence =>
    have hnone : job.fence ≠ .blocked := fun heq => hnot ((hmem _).mpr (.inl ⟨heq, rfl⟩))
    change Stage.tick? (if job.fence = .blocked then _ else _) = job.fence.tick?
    rw [if_neg hnone]
  | delivery =>
    have hnone : job.delivery ≠ .blocked := fun heq => hnot ((hmem _).mpr (.inr ⟨heq, rfl⟩))
    change Stage.tick? (if job.delivery = .blocked then _ else _) = job.delivery.tick?
    rw [if_neg hnone]
  | _ => rfl

/-- Each reaction of a chain in its tick keeps what holds of its job. -/
theorem Fits.react (hfits : Fits now opened job) (hcurrent : Current now job)
    {chain : Chain} (hnow : (job.stage chain).tick? = some now)
    (hopened : ∀ before, opened = some before → before ≤ now) :
    Fits now opened (job.react now opened.isSome chain).job ∧
      Moves now (some chain) job (job.react now opened.isSome chain).job
        (job.react now opened.isSome chain).queued := by
  cases chain with
  | outcome => exact ⟨hfits.runOutcome hcurrent hnow, hfits.moves_runOutcome hnow⟩
  | publication => exact ⟨hfits.runPublication hnow, moves_runPublication⟩
  | fence => exact ⟨hfits.runFence hnow hopened, hfits.moves_runFence hnow⟩
  | delivery => exact ⟨hfits.runDelivery hnow hopened, moves_runDelivery hnow⟩

end Job

end Hummin.SessionLine
