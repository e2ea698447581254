/-
What the line does to its jobs: a job is enqueued, begins, touches keys, admits a commit, and
settles, and its part is published or refused.
-/
import Hummin.SessionLineSound

namespace Hummin.SessionLine

namespace Job

variable {ε α κ : Type} {job : Job ε α κ} {now : Nat} {opened : Option Nat}

/-- What a job's chains rest on before its promise settles, and what comes once the thing they
wait for is there. -/
structure Prompt (job : Job ε α κ) : Prop where
  fenced : job.outcome = .idle → job.fenced = true
  chosen : job.kind = .exempt → job.outcome = .idle → job.delivery = .idle
  ran : job.kind ≠ .upkeep → ∀ result, job.line = .ran result → job.outcome ≠ .idle
  published : job.publication = .blocked → job.part = none

/-- A job whose promise did not settle has no outcome on its way. -/
theorem Fits.idle (hfits : Fits now opened job) (hline : ∀ result, job.line ≠ .ran result) :
    job.outcome = .idle := by
  by_contra hran
  obtain ⟨result, heq⟩ := hfits.exists_ran hran
  exact hline result heq

variable {later : Job ε α κ}

/-- A change of the line part alone, while the job's promise did not settle. -/
theorem Fits.setLine (hfits : Fits now opened job) (hprompt : Prompt job)
    (hline : ∀ result, job.line ≠ .ran result)
    (hlater : later = { job with
      line := later.line, hit := later.hit, met := later.met, admitted := later.admitted })
    (hhit : later.hit = false → later.met = [])
    (hrefused : ∀ failure, later.line = .left (.error failure) ∨ later.line = .ran (.error failure) →
      later.admitted = false) : Fits now opened later := by
  have hidle := hfits.idle hline
  have hfenced := hprompt.fenced hidle
  have houtcome := hfits.outcomeFits
  have hpublication := hfits.publicationFits
  rw [OutcomeFits, hidle] at houtcome
  rw [hlater] at hhit hrefused ⊢
  refine { hfits with
    outcomeFits := ?_, publicationFits := hpublication, unfenced := ?_, hit := hhit
    refused := hrefused }
  · rw [OutcomeFits]
    rw [hidle]
    exact houtcome
  intro hfalse
  cases hfenced.symm.trans hfalse

theorem Prompt.setLine (hprompt : Prompt job)
    (hlater : later = { job with
      line := later.line, hit := later.hit, met := later.met, admitted := later.admitted })
    (hline : later.kind ≠ .upkeep → ∀ result, later.line ≠ .ran result) : Prompt later := by
  rw [hlater] at hline ⊢
  exact ⟨hprompt.fenced, hprompt.chosen, fun hkind result heq => absurd heq (hline hkind result),
    hprompt.published⟩

theorem Fits.setEnds (hfits : Fits now opened job) (hline : ∀ result, job.line ≠ .ran result)
    {ends : List Nat} : Fits now opened { job with ends := ends } := by
  have hidle := hfits.idle hline
  have houtcome := hfits.outcomeFits
  rw [OutcomeFits, hidle] at houtcome
  refine { hfits with outcomeFits := ?_, publicationFits := ?_ }
  · rw [OutcomeFits]
    rw [hidle]
    exact houtcome
  rw [PublicationFits]
  rw [houtcome]
  trivial

variable {delivery : Stage}

/-- A job's promise settled: its outcome goes on, and an exempt job chooses its delivery. -/
theorem Fits.settleRan (hfits : Fits now opened job)
    {result : Except (Failure ε) α} (hline : job.line = .left result)
    (hdelivery : delivery = if job.kind = .exempt then .choosing (now + 1) else job.delivery) :
    Fits now opened
      { job with line := .ran result, outcome := .called (now + 1), delivery := delivery } := by
  have hidle : job.outcome = .idle := hfits.idle fun other heq => by
    rw [hline] at heq
    cases heq
  have houtcome := hfits.outcomeFits
  have hfence := hfits.fenceFits
  have hold := hfits.deliveryFits
  have hexempt := hfits.exempt
  rw [OutcomeFits, hidle] at houtcome
  rw [hidle] at hfence hold
  have hrefused : ∀ failure, (Line.ran result : Line ε α) = .left (.error failure) ∨
      Line.ran result = .ran (.error failure) → job.admitted = false := by
    rintro failure (heq | heq)
    · cases heq
    cases heq
    exact hfits.refused failure (.inl hline)
  refine ⟨⟨houtcome, result, rfl⟩, hfits.publicationFits, hfence, ?_, by rintro ⟨⟩, ?_,
    hfits.unfenced, hfits.hit, hrefused⟩
  · dsimp only
    by_cases hkind : job.kind = .exempt
    · rw [hdelivery, if_pos hkind]
      exact .inl rfl
    rw [hdelivery, if_neg hkind]
    obtain ⟨stage, hstage⟩ : ∃ stage, job.delivery = stage := ⟨_, rfl⟩
    rw [hstage] at hold ⊢
    cases stage with
    | idle => exact absurd (hexempt.2 hstage) hkind
    | choosing tick => exact absurd (hexempt.1 tick hstage) hkind
    | following => exact ⟨hold.1, rfl, hold.2.2⟩
    | listening => exact ⟨hold.1, rfl⟩
    | settling _ => cases hold.2.1
    | finishing _ => cases hold.1
    | finished _ => cases hold
    | _ => exact hold
  dsimp only
  by_cases hkind : job.kind = .exempt
  · exact ⟨fun _ _ => hkind, fun _ => hkind⟩
  rw [hdelivery, if_neg hkind]
  exact hexempt

theorem Prompt.settleRan (hprompt : Prompt job) {result : Except (Failure ε) α} :
    Prompt { job with line := .ran result, outcome := .called (now + 1), delivery := delivery } :=
  ⟨nofun, nofun, fun _ _ _ => nofun, hprompt.published⟩

variable {result : Except (Failure ε) Unit} {publication : Stage}

/-- The part of the job's commit settles. -/
theorem Fits.settlePart (hfits : Fits now opened job) (hadmitted : job.admitted = true)
    (hpart : job.part = none)
    (hpublication : publication =
      if job.publication = .blocked then .called (now + 1) else job.publication) :
    Fits now opened { job with part := some result, publication := publication } := by
  have houtcome := hfits.outcomeFits
  have hold := hfits.publicationFits
  have hwaits : job.publication = .idle → publication = .idle := by
    intro heq
    rw [hpublication, heq]
    rfl
  have hblocked : job.publication = .blocked → publication = .called (now + 1) := by
    intro heq
    rw [hpublication, if_pos heq]
  rw [PublicationFits] at hold
  refine { hfits with outcomeFits := ?_, publicationFits := ?_ }
  · rw [OutcomeFits] at houtcome ⊢
    obtain ⟨stage, hstage⟩ : ∃ stage, job.outcome = stage := ⟨_, rfl⟩
    rw [hstage] at houtcome ⊢
    have hnotIdle : job.publication ≠ .idle → publication ≠ .idle := by
      intro hne
      rw [hpublication]
      split
      · rintro ⟨⟩
      · exact hne
    have hfinished : publication.isFinished = job.publication.isFinished := by
      rw [hpublication]
      split
      next heq =>
        rw [heq]
        rfl
      · rfl
    cases stage with
    | idle => exact hwaits houtcome
    | called _ => exact ⟨hwaits houtcome.1, houtcome.2⟩
    | adopting _ => exact ⟨hnotIdle houtcome.1, houtcome.2⟩
    | following => exact ⟨hnotIdle houtcome.1, hfinished.trans houtcome.2.1, houtcome.2.2⟩
    | settling _ => exact ⟨hfinished.trans houtcome.1, houtcome.2⟩
    | finished _ =>
      obtain ⟨-, -, _, -, hsettled⟩ := houtcome
      have hsome := (hsettled hadmitted).1
      rw [hpart] at hsome
      cases hsome
    | _ => exact houtcome
  rw [PublicationFits]
  obtain ⟨stage, hstage⟩ : ∃ stage, job.publication = stage := ⟨_, rfl⟩
  rw [hstage] at hold
  cases stage with
  | idle =>
    rw [hwaits hstage]
    trivial
  | blocked =>
    rw [hblocked hstage]
    rfl
  | called _ =>
    rw [hpart] at hold
    cases hold
  | finished _ =>
    rw [hpart] at hold
    cases hold.1
  | _ => exact hold.elim

theorem Prompt.settlePart (hprompt : Prompt job)
    (hpublication : publication ≠ .blocked) :
    Prompt { job with part := some result, publication := publication } :=
  ⟨hprompt.fenced, hprompt.chosen, hprompt.ran, fun heq => absurd heq hpublication⟩

/-- A job takes its place behind the fence. -/
theorem fits_enqueue {exempt : Bool} {before : Option Nat}
    (hopened : ∀ tick, opened = some tick → tick ≤ now) {stage : Stage}
    (hstage : stage = if opened.isSome then .called (now + 1) else .blocked) :
    Fits now opened { (State.blank : Job ε α κ) with
      kind := if exempt then .exempt else .ordinary
      before := before
      fence := stage
      delivery := if exempt then .idle else stage } := by
  have hfence : FenceFits opened false stage := by
    rw [hstage]
    cases opened with
    | none => rfl
    | some tick => rfl
  have hdelivery : DeliveryFits now opened .idle true stage := by
    rw [hstage]
    cases opened with
    | none => exact ⟨rfl, rfl⟩
    | some tick => exact ⟨rfl, tick, rfl, Nat.succ_le_succ (hopened tick rfl)⟩
  have hne : stage ≠ .idle ∧ ∀ tick, stage ≠ .choosing tick := by
    rw [hstage]
    split
    · exact ⟨nofun, nofun⟩
    · exact ⟨nofun, nofun⟩
  refine ⟨rfl, trivial, hfence, ?_, nofun, ?_, nofun, fun _ => rfl, ?_⟩
  · cases exempt with
    | true => rfl
    | false => exact hdelivery
  · cases exempt with
    | true => exact ⟨nofun, fun _ => rfl⟩
    | false => exact ⟨fun tick heq => absurd heq (hne.2 tick), fun heq => absurd heq hne.1⟩
  rintro failure (heq | heq)
  · cases heq
  · cases heq

/-! ### Reactions -/

/-- What the reactions of a job leave as it was. -/
theorem react_frame (job : Job ε α κ) (now : Nat) (opened : Bool) (chain : Chain) :
    (job.react now opened chain).job.kind = job.kind ∧
      (job.react now opened chain).job.before = job.before ∧
      (job.react now opened chain).job.line = job.line ∧
      (job.react now opened chain).job.part = job.part := by
  cases chain with
  | outcome =>
    rw [react, runOutcome]
    split
    · exact ⟨rfl, rfl, rfl, rfl⟩
    · split
      · exact ⟨rfl, rfl, rfl, rfl⟩
      · exact ⟨rfl, rfl, rfl, rfl⟩
    · split
      · exact ⟨rfl, rfl, rfl, rfl⟩
      · exact ⟨rfl, rfl, rfl, rfl⟩
    · exact ⟨rfl, rfl, rfl, rfl⟩
    · exact ⟨rfl, rfl, rfl, rfl⟩
  | delivery =>
    rw [react, runDelivery]
    split
    · split
      · split
        · exact ⟨rfl, rfl, rfl, rfl⟩
        · exact ⟨rfl, rfl, rfl, rfl⟩
      split
      · exact ⟨rfl, rfl, rfl, rfl⟩
      · exact ⟨rfl, rfl, rfl, rfl⟩
    · exact ⟨rfl, rfl, rfl, rfl⟩
  | _ => exact ⟨rfl, rfl, rfl, rfl⟩

/-- A reaction of the outcome delivers nothing, and leaves the fence unsettled. -/
theorem runOutcome_frame (job : Job ε α κ) (now : Nat) :
    (job.runOutcome now).job.fenced = job.fenced ∧
      (job.runOutcome now).job.delivery.isFinished = job.delivery.isFinished ∧
      (job.runOutcome now).job.fence.finishedAt? = job.fence.finishedAt? := by
  have hsettles : ∀ stage : Stage, (stage.onSettled now).isFinished = stage.isFinished ∧
      (stage.onSettled now).finishedAt? = stage.finishedAt? := by
    intro stage
    cases stage <;> exact ⟨rfl, rfl⟩
  rw [runOutcome]
  split
  · exact ⟨rfl, (hsettles _).1, (hsettles _).2⟩
  · split
    · exact ⟨rfl, rfl, rfl⟩
    · exact ⟨rfl, (hsettles _).1, (hsettles _).2⟩
  · split
    · exact ⟨rfl, rfl, rfl⟩
    · exact ⟨rfl, rfl, rfl⟩
  · exact ⟨rfl, (hsettles _).1, (hsettles _).2⟩
  · exact ⟨rfl, rfl, rfl⟩

/-- A reaction of the delivery changes nothing but how and where it stands. -/
theorem runDelivery_eq (job : Job ε α κ) (now : Nat) (opened : Bool) :
    ∃ fenced stage, (job.runDelivery now opened).job =
      { job with fenced := fenced, delivery := stage } ∧ (job.runDelivery now opened).ended = [] ∧
      (fenced ≠ job.fenced → ∃ tick, job.delivery = .choosing tick) := by
  rw [runDelivery]
  split
  next tick htick =>
    split
    · split
      · exact ⟨true, _, rfl, rfl, fun _ => ⟨tick, htick⟩⟩
      · exact ⟨true, _, rfl, rfl, fun _ => ⟨tick, htick⟩⟩
    split
    · exact ⟨false, _, rfl, rfl, fun _ => ⟨tick, htick⟩⟩
    · exact ⟨false, _, rfl, rfl, fun _ => ⟨tick, htick⟩⟩
  · exact ⟨job.fenced, _, rfl, rfl, fun hne => absurd rfl hne⟩

/-- The end callbacks a reaction runs leave the job. -/
theorem react_ends (job : Job ε α κ) (now : Nat) (opened : Bool) (chain : Chain) :
    (job.react now opened chain).ended ++ (job.react now opened chain).job.ends = job.ends := by
  cases chain with
  | outcome =>
    rw [react, runOutcome]
    split
    · exact List.append_nil _
    · split
      · rfl
      · exact List.append_nil _
    · split
      · rfl
      · rfl
    · rfl
    · rfl
  | publication => exact List.append_nil _
  | fence => rfl
  | delivery =>
    obtain ⟨fenced, stage, hjob, hended, -⟩ := runDelivery_eq job now opened
    rw [react, hjob, hended]
    rfl

section

variable (hprompt : Prompt job)
include hprompt

theorem Prompt.runOutcome (hfits : Fits now opened job)
    (hnow : job.outcome.tick? = some now) : Prompt (job.runOutcome now).job := by
  rcases hfits.runOutcome_cases hnow with ⟨result, value, -, heq, -, -⟩ |
    ⟨value, -, -, -, -, heq⟩ | ⟨-, heq⟩ | ⟨value, -, -, -, heq⟩
  · rw [heq]
    exact ⟨nofun, nofun, fun _ _ _ => nofun, hprompt.published⟩
  · rw [heq]
    refine ⟨nofun, nofun, fun _ _ _ => nofun, fun hblocked => ?_⟩
    split at hblocked
    · cases hblocked
    · next hnone => exact Option.not_isSome_iff_eq_none.mp hnone
  · rw [heq]
    split
    · exact ⟨nofun, nofun, fun _ _ _ => nofun, hprompt.published⟩
    · exact ⟨nofun, nofun, fun _ _ _ => nofun, hprompt.published⟩
  · rw [heq]
    exact ⟨nofun, nofun, fun _ _ _ => nofun, hprompt.published⟩

theorem Prompt.runPublication : Prompt (job.runPublication now).job := by
  by_cases hfollowing : job.outcome = .following
  · have houtcome : (job.runPublication now).job.outcome = .settling (now + 1) := if_pos hfollowing
    have hne : (job.runPublication now).job.outcome ≠ .idle := by
      rw [houtcome]
      exact nofun
    exact ⟨fun hidle => absurd hidle hne, fun _ hidle => absurd hidle hne, fun _ _ _ => hne, nofun⟩
  have houtcome : (job.runPublication now).job.outcome = job.outcome := if_neg hfollowing
  refine ⟨?_, ?_, ?_, nofun⟩
  · rw [houtcome]
    exact hprompt.fenced
  · rw [houtcome]
    exact hprompt.chosen
  rw [houtcome]
  exact hprompt.ran

theorem Prompt.runDelivery (hfits : Fits now opened job)
    (hnow : job.delivery.tick? = some now) : Prompt (job.runDelivery now opened.isSome).job := by
  obtain ⟨fenced, stage, hjob, -, hchosen⟩ := runDelivery_eq job now opened.isSome
  rw [hjob]
  refine ⟨fun hidle => ?_, fun hkind hidle => ?_, hprompt.ran, hprompt.published⟩
  · by_contra hfenced
    have hne : fenced ≠ job.fenced := by
      rw [hprompt.fenced hidle]
      exact hfenced
    obtain ⟨tick, htick⟩ := hchosen hne
    have hdelivery := hfits.deliveryFits
    rw [htick] at hdelivery
    rcases hdelivery with hcalled | ⟨-, hran⟩
    · cases hcalled.symm.trans hidle
    · exact hran hidle
  have hdelivery := hprompt.chosen hkind hidle
  rw [hdelivery] at hnow
  cases hnow

theorem Prompt.react (hfits : Fits now opened job) {chain : Chain}
    (hnow : (job.stage chain).tick? = some now) :
    Prompt (job.react now opened.isSome chain).job := by
  cases chain with
  | outcome => exact hprompt.runOutcome hfits hnow
  | publication => exact hprompt.runPublication
  | fence => exact ⟨hprompt.fenced, hprompt.chosen, hprompt.ran, hprompt.published⟩
  | delivery => exact hprompt.runDelivery hfits hnow

theorem Prompt.open_ : Prompt (job.open_ now) := by
  refine ⟨hprompt.fenced, fun hkind hidle => ?_, hprompt.ran, hprompt.published⟩
  have hdelivery := hprompt.chosen hkind hidle
  change (if job.delivery = .blocked then _ else _) = Stage.idle
  rw [hdelivery, if_neg nofun]

end

end Job

end Hummin.SessionLine
