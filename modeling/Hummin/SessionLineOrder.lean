/-
Outcomes come in line order: the invariant of a run on the Session line, and what it says of
the outcomes delivered.
-/
import Hummin.SessionLineLog

namespace Hummin.SessionLine

open List Function

namespace State

variable {ε α κ : Type} {state : State ε α κ} {index : Nat} {later : Job ε α κ}
  {queued : List Chain}

/-- What holds in every state of a run. -/
structure Sound (state : State ε α κ) : Prop where
  timed : Timed state.jobs state.tasks
  standing : Standing state.jobs state.nextIndex state.fence state.tasks.clock
  prompt : ∀ index, (state.jobs index).Prompt
  running : ∀ index, state.current = some index → (state.jobs index).line = .onLine
  logged : Logged state.jobs state.delivered
  outstanding : state.outstanding = (waiting state.jobs state.nextIndex).card
  bounded : state.outstanding ≤ maxOutstanding
  ended : (state.endsRun ++ pendingEnds state.jobs state.nextIndex).Perm (List.range state.nextEnd)

theorem prompt_blank : (blank : Job ε α κ).Prompt :=
  ⟨fun _ => rfl, fun _ _ => rfl, fun hkind => absurd rfl hkind, nofun⟩

theorem sound_start : (start : State ε α κ).Sound := by
  refine ⟨⟨⟨.nil, nofun, .nil⟩, ?_⟩, ?_, fun _ => prompt_blank, nofun, ?_, rfl, Nat.zero_le _, .nil⟩
  · rintro tick ⟨index, chain⟩
    refine ⟨nofun, fun hdue => ?_⟩
    cases chain <;> cases hdue
  · refine ⟨nofun, fun _ _ => rfl, fun _ _ => ⟨rfl, ?_, rfl⟩, fun _ hkind => absurd rfl hkind,
      fun _ hkind => absurd rfl hkind, nofun⟩
    intro chain
    cases chain <;> rfl
  exact ⟨fun _ => ⟨nofun, nofun⟩, .nil, nofun, fun earlier entry later hsplit =>
    absurd hsplit (by simp [start])⟩

variable {line : Line ε α}

theorem Sound.lt_nextIndex (hsound : Sound state)
    (hline : (state.jobs index).line = line) (hbegun : line ≠ .queued) : index < state.nextIndex := by
  by_contra hout
  rw [hsound.standing.unused index (Nat.le_of_not_lt hout)] at hline
  exact hbegun hline.symm

/-- A change of one job that keeps its place, its delivery, and its end callbacks. -/
structure Same (job later : Job ε α κ) : Prop where
  kind : later.kind = job.kind
  before : later.before = job.before
  fence : later.fence.finishedAt? = job.fence.finishedAt?
  delivery : later.delivery.isFinished = job.delivery.isFinished
  answer : job.delivery.isFinished = true → later.fenced = job.fenced ∧ later.value = job.value

theorem Sound.logged_change (hsound : Sound state) (hsame : Same (state.jobs index) later) :
    Logged (update state.jobs index later) state.delivered := by
  apply hsound.logged.congr
  · exact update_congr (fun job => job.delivery.isFinished) hsame.delivery
  · intro other hdone
    by_cases hother : other = index
    · subst hother
      rw [update_self]
      exact hsame.answer hdone
    rw [update_of_ne hother]
    exact ⟨rfl, rfl⟩
  · exact fun _ _ other _ => update_congr Job.kind hsame.kind other

theorem Sound.prompt_change (hsound : Sound state) (hprompt : later.Prompt) (other : Nat) :
    (update state.jobs index later other).Prompt := by
  by_cases hother : other = index
  · rw [hother, update_self]
    exact hprompt
  rw [update_of_ne hother]
  exact hsound.prompt other

theorem Sound.running_change (hsound : Sound state)
    (hline : state.current = some index → later.line = .onLine) {other : Nat}
    (hcurrent : state.current = some other) :
    (update state.jobs index later other).line = .onLine := by
  by_cases hsame : other = index
  · subst hsame
    rw [update_self]
    exact hline hcurrent
  rw [update_of_ne hsame]
  exact hsound.running other hcurrent

variable {nextIndex : Nat} {jobs : Nat → Job ε α κ}

theorem waiting_change (hsame : later.isOutstanding = (jobs index).isOutstanding) :
    waiting (update jobs index later) nextIndex = waiting jobs nextIndex :=
  waiting_congr (update_congr Job.isOutstanding hsame)

theorem pendingEnds_change (hsame : later.ends = (jobs index).ends) :
    pendingEnds (update jobs index later) nextIndex = pendingEnds jobs nextIndex :=
  pendingEnds_congr (update_congr Job.ends hsame)

/-- A change of a job that began or not, and keeps its end callbacks. -/
theorem Sound.change (hsound : Sound state) (hindex : index < state.nextIndex)
    (hsame : Same (state.jobs index) later)
    (hmoves : Job.Moves state.tasks.clock none (state.jobs index) later queued)
    (hupkeep : (state.jobs index).kind = .upkeep → later.IsUpkeep)
    (hfits : (state.jobs index).kind ≠ .upkeep →
      later.Fits state.tasks.clock (openedAt state.jobs (state.jobs index).before))
    (hprompt : later.Prompt) (hline : state.current = some index → later.line = .onLine)
    (hstarted : later.started = (state.jobs index).started)
    (hends : later.ends = (state.jobs index).ends) :
    Sound ((state.setJob index later).queue index queued) := by
  have hwaits : later.isOutstanding = (state.jobs index).isOutstanding := by
    rw [Job.isOutstanding, Job.isOutstanding, hsame.kind, hsame.delivery, hstarted]
  refine ⟨hsound.timed.atRest.update hmoves,
    hsound.standing.change hindex hsame.kind hsame.before hsame.fence hupkeep hfits,
    hsound.prompt_change hprompt, fun other hcurrent => hsound.running_change hline hcurrent,
    hsound.logged_change hsame, ?_, hsound.bounded, ?_⟩
  · exact hsound.outstanding.trans (congrArg Finset.card (waiting_change hwaits).symm)
  change List.Perm (state.endsRun ++ pendingEnds (update state.jobs index later) _) _
  rw [pendingEnds_change hends]
  exact hsound.ended

theorem queue_nil (state : State ε α κ) (index : Nat) : state.queue index [] = state := by
  rw [queue, map_nil, Microtasks.pushAll, map_nil, append_nil]

/-- A change of the line part of a job that began and did not settle. -/
theorem Sound.setLine (hsound : Sound state)
    (hbegun : (state.jobs index).started = true)
    (hunsettled : ∀ result, (state.jobs index).line ≠ .ran result)
    (hlater : later = { state.jobs index with
      line := later.line, hit := later.hit, met := later.met, admitted := later.admitted })
    (hhit : (state.jobs index).kind ≠ .upkeep → later.hit = false → later.met = [])
    (hrefused : (state.jobs index).kind ≠ .upkeep → ∀ failure,
      later.line = .left (.error failure) ∨ later.line = .ran (.error failure) →
        later.admitted = false)
    (hlaterBegun : later.started = true) (hlaterLine : ∀ result, later.line ≠ .ran result)
    (hline : state.current = some index → later.line = .onLine) :
    Sound (state.setJob index later) := by
  have hindex : index < state.nextIndex := by
    by_contra hout
    rw [hsound.standing.unused index (Nat.le_of_not_lt hout)] at hbegun
    cases hbegun
  have hstages : ∀ chain, later.stage chain = (state.jobs index).stage chain := by
    intro chain
    rw [hlater]
    cases chain <;> rfl
  have hsame : Same (state.jobs index) later := by
    rw [hlater]
    exact ⟨rfl, rfl, rfl, rfl, fun _ => ⟨rfl, rfl⟩⟩
  rw [← queue_nil (state.setJob index later) index]
  apply hsound.change hindex hsame
  · apply Job.moves_none
    intro chain
    rw [hstages]
  · intro hkind
    have hupkeep := hsound.standing.upkeep index hkind
    refine ⟨?_, ?_, ?_⟩
    · rw [hlater]
      exact hupkeep.before
    · intro chain
      rw [hstages]
      exact hupkeep.idle chain
    rw [hlater]
    exact hupkeep.ends
  · intro hkind
    exact (hsound.standing.fits index hkind).setLine (hsound.prompt index) hunsettled hlater
      (hhit hkind) (hrefused hkind)
  · exact (hsound.prompt index).setLine hlater fun _ => hlaterLine
  · exact hline
  · rw [hlaterBegun, hbegun]
  · rw [hlater]

/-! ### The steps -/

variable {now : Nat} {stage : Stage}

theorem moves_enqueue {exempt opened : Bool} {kind : Kind} {before : Option Nat}
    (hstage : stage = if opened then .called (now + 1) else .blocked) :
    Job.Moves now none (blank : Job ε α κ)
      { (blank : Job ε α κ) with
        kind := kind
        before := before
        fence := stage
        delivery := if exempt then .idle else stage }
      (if opened then (if exempt then [.fence] else [.fence, .delivery]) else []) := by
  subst hstage
  cases opened with
  | false =>
    apply Job.moves_none
    intro chain
    cases chain with
    | delivery => cases exempt <;> rfl
    | _ => rfl
  | true =>
    cases exempt with
    | true =>
      refine ⟨pairwise_singleton _ _, ?_, ?_, nofun⟩
      · intro chain hchain
        obtain rfl := mem_singleton.mp hchain
        exact ⟨rfl, fun _ => rfl⟩
      intro chain hnot _
      cases chain with
      | fence => exact absurd mem_cons_self hnot
      | _ => rfl
    | false =>
      refine ⟨by decide, ?_, ?_, nofun⟩
      · intro chain hchain
        cases chain with
        | fence => exact ⟨rfl, fun _ => rfl⟩
        | delivery => exact ⟨rfl, fun _ => rfl⟩
        | _ => exact absurd hchain (by decide)
      intro chain hnot _
      cases chain with
      | fence => exact absurd (by decide) hnot
      | delivery => exact absurd (by decide) hnot
      | _ => rfl

theorem Sound.not_current_nextIndex (hsound : Sound state) :
    state.current ≠ some state.nextIndex := by
  intro hcurrent
  have hline := hsound.running _ hcurrent
  rw [hsound.standing.unused _ le_rfl] at hline
  cases hline

theorem Sound.enqueue (hsound : Sound state) (exempt : Bool) : Sound (state.enqueue exempt) := by
  have hblank := hsound.standing.unused state.nextIndex le_rfl
  have hopened := isSome_openedAt state state.fence
  obtain ⟨stage, hstage⟩ : ∃ stage : Stage, stage = if state.opened state.fence
      then .called (state.tasks.clock + 1) else .blocked := ⟨_, rfl⟩
  obtain ⟨job, hjob⟩ : ∃ job : Job ε α κ, job = { (blank : Job ε α κ) with
      kind := if exempt then .exempt else .ordinary
      before := state.fence
      fence := stage
      delivery := if exempt then .idle else stage } := ⟨_, rfl⟩
  have hstate : state.enqueue exempt = { (state.add job).queue state.nextIndex
      (if state.opened state.fence then (if exempt then [.fence] else [.fence, .delivery]) else [])
      with fence := some state.nextIndex } := by
    rw [hjob, hstage]
    rfl
  have hmoves : Job.Moves state.tasks.clock none (state.jobs state.nextIndex) job
      (if state.opened state.fence then (if exempt then [.fence] else [.fence, .delivery])
        else []) := by
    rw [hblank, hjob]
    exact moves_enqueue hstage
  have hkind : job.kind ≠ .upkeep := by
    rw [hjob]
    cases exempt <;> exact nofun
  have hunfinished : stage.finishedAt? = none ∧ stage.isFinished = false := by
    rw [hstage]
    split
    · exact ⟨rfl, rfl⟩
    · exact ⟨rfl, rfl⟩
  have hdelivery : job.delivery.isFinished = false := by
    rw [hjob]
    cases exempt with
    | true => rfl
    | false => exact hunfinished.2
  rw [hstate]
  refine ⟨hsound.timed.atRest.update hmoves, ?_, ?_, ?_, ?_, ?_, hsound.bounded, ?_⟩
  · apply hsound.standing.enqueue hkind
    · rw [hjob]
    · rw [hjob]
      exact hunfinished.1
    rw [hjob]
    apply Job.fits_enqueue fun tick htick => hsound.standing.openedAt_le htick
    rw [hopened]
    exact hstage
  · apply hsound.prompt_change
    rw [hjob]
    refine ⟨fun _ => rfl, fun hexempt _ => ?_, fun _ _ => nofun, nofun⟩
    cases exempt with
    | true => rfl
    | false => cases hexempt
  · intro other hcurrent
    apply hsound.running_change _ hcurrent
    exact fun heq => absurd heq hsound.not_current_nextIndex
  · apply hsound.logged.congr
    · intro other
      by_cases hother : other = state.nextIndex
      · subst hother
        change (update state.jobs state.nextIndex job state.nextIndex).delivery.isFinished = _
        rw [update_self, hdelivery, hblank]
        rfl
      change (update state.jobs state.nextIndex job other).delivery.isFinished = _
      rw [update_of_ne hother]
    · intro other hdone
      have hother : other ≠ state.nextIndex := by
        rintro rfl
        rw [hblank] at hdone
        cases hdone
      change (update state.jobs state.nextIndex job other).fenced = _ ∧
        (update state.jobs state.nextIndex job other).value = _
      rw [update_of_ne hother]
      exact ⟨rfl, rfl⟩
    intro entry hentry other hother
    have hdone := (hsound.logged.finished entry.index).mpr (mem_map_of_mem hentry)
    have hbound : entry.index < state.nextIndex := by
      by_contra hout
      rw [hsound.standing.unused _ (Nat.le_of_not_lt hout)] at hdone
      cases hdone
    have hne : other ≠ state.nextIndex := by omega
    change (update state.jobs state.nextIndex job other).kind = _
    rw [update_of_ne hne]
  · refine hsound.outstanding.trans (congrArg Finset.card (waiting_succ ?_ ?_).symm)
    · change (update state.jobs state.nextIndex job state.nextIndex).isOutstanding = false
      rw [update_self, hjob, Job.isOutstanding, Job.started]
      exact (congrArg (· && _) (Bool.and_false _)).trans (Bool.false_and _)
    intro other hother
    change (update state.jobs state.nextIndex job other).isOutstanding = _
    rw [update_of_ne (ne_of_lt hother)]
  change List.Perm (state.endsRun ++
    pendingEnds (update state.jobs state.nextIndex job) (state.nextIndex + 1)) _
  rw [pendingEnds_succ]
  · exact hsound.ended
  · rw [update_self, hjob]
    rfl
  intro other hother
  rw [update_of_ne (ne_of_lt hother)]

theorem Sound.maintain (hsound : Sound state) : Sound (state.add blank) := by
  have hblank := hsound.standing.unused state.nextIndex le_rfl
  have hstate : state.add blank = { state with nextIndex := state.nextIndex + 1 } := by
    rw [add, setJob, ← hblank, update_eq_self]
  rw [hstate]
  refine { hsound with standing := hsound.standing.maintain, outstanding := ?_, ended := ?_ }
  · refine hsound.outstanding.trans (congrArg Finset.card (waiting_succ ?_ fun _ _ => rfl).symm)
    rw [hblank]
    rfl
  rw [pendingEnds_succ _ fun _ _ => rfl]
  · exact hsound.ended
  rw [hblank]
  rfl

variable {job : Job ε α κ}

theorem started_of_line (hline : job.line = line)
    (hbegun : line ≠ .queued) : job.started = true := by
  rw [Job.started, hline]
  cases line with
  | queued => exact absurd rfl hbegun
  | _ => rfl

theorem nextJob_eq_some (hnext : state.nextJob = some index) :
    index < state.nextIndex ∧ (state.jobs index).line = .queued := by
  have hfound := find?_some hnext
  have hmem := mem_of_find?_eq_some hnext
  refine ⟨mem_range.mp hmem, ?_⟩
  split at hfound
  · next hqueued => exact hqueued
  · cases hfound

section

variable (hsound : Sound state)

include hsound

theorem Sound.timed_change (hstages : ∀ chain, later.stage chain = (state.jobs index).stage chain) :
    Timed (update state.jobs index later) state.tasks := by
  have hupdated := hsound.timed.atRest.update (Job.moves_none fun chain =>
    congrArg Stage.tick? (hstages chain))
  rwa [map_nil, Microtasks.pushAll, map_nil, append_nil] at hupdated

/-- A job begins on the line. -/
theorem Sound.begin (hnext : state.nextJob = some index)
    (hroom : (state.jobs index).kind ≠ .upkeep → state.outstanding < maxOutstanding) :
    Sound { state.setJob index { state.jobs index with line := .onLine } with
      current := some index
      outstanding := if (state.jobs index).kind = .upkeep then state.outstanding
        else state.outstanding + 1 } := by
  obtain ⟨hindex, hqueued⟩ := nextJob_eq_some hnext
  have hunsettled : ∀ result, (state.jobs index).line ≠ .ran result := by
    intro result
    rw [hqueued]
    rintro ⟨⟩
  obtain ⟨job, hjob⟩ : ∃ job, job = { state.jobs index with line := .onLine } := ⟨_, rfl⟩
  have hstages : ∀ chain, job.stage chain = (state.jobs index).stage chain := by
    intro chain
    rw [hjob]
    cases chain <;> rfl
  have hsame : Same (state.jobs index) job := by
    rw [hjob]
    exact ⟨rfl, rfl, rfl, rfl, fun _ => ⟨rfl, rfl⟩⟩
  have htimed := hsound.timed_change hstages
  have hbefore : (state.jobs index).isOutstanding = false := by
    rw [Job.isOutstanding, Job.started, hqueued, Bool.and_false, Bool.false_and]
  rw [← hjob]
  refine ⟨htimed, ?_, ?_, ?_, hsound.logged_change hsame, ?_, ?_, ?_⟩
  · apply hsound.standing.change hindex hsame.kind hsame.before hsame.fence
    · intro hkind
      have hupkeep := hsound.standing.upkeep index hkind
      refine ⟨hsame.before.trans hupkeep.before, fun chain => ?_, ?_⟩
      · rw [hstages]
        exact hupkeep.idle chain
      rw [hjob]
      exact hupkeep.ends
    intro hkind
    rw [hjob]
    apply (hsound.standing.fits index hkind).setLine (hsound.prompt index) hunsettled rfl
    · exact (hsound.standing.fits index hkind).hit
    rintro failure (heq | heq)
    · cases heq
    · cases heq
  · apply hsound.prompt_change
    rw [hjob]
    exact (hsound.prompt index).setLine rfl fun _ _ heq => by cases heq
  · intro other hcurrent
    cases hcurrent
    change (update state.jobs index job index).line = .onLine
    rw [update_self, hjob]
  · change (if (state.jobs index).kind = .upkeep then state.outstanding else state.outstanding + 1) =
      (waiting (update state.jobs index job) state.nextIndex).card
    by_cases hkind : (state.jobs index).kind = .upkeep
    · have hlater : job.isOutstanding = (state.jobs index).isOutstanding := by
        rw [hbefore, Job.isOutstanding, hsame.kind, hkind]
        rfl
      rw [if_pos hkind, waiting_change hlater]
      exact hsound.outstanding
    have hdelivery : (state.jobs index).delivery.isFinished = false := by
      have hfits := hsound.standing.fits index hkind
      have hidle := hfits.idle hunsettled
      have hdelivered := hfits.deliveryFits
      cases hstage : (state.jobs index).delivery with
      | finished _ =>
        rw [hstage, hidle] at hdelivered
        cases hdelivered
      | _ => rfl
    have hlater : job.isOutstanding = true := by
      rw [Job.isOutstanding, hsame.kind, hsame.delivery, hdelivery, decide_eq_true hkind, hjob]
      rfl
    rw [if_neg hkind, card_waiting_begin hindex hbefore hlater, ← hsound.outstanding]
  · change (if (state.jobs index).kind = .upkeep then state.outstanding
      else state.outstanding + 1) ≤ maxOutstanding
    split
    · exact hsound.bounded
    · next hkind => exact hroom hkind
  · change List.Perm (state.endsRun ++ pendingEnds (update state.jobs index job) _) _
    rw [pendingEnds_change]
    · exact hsound.ended
    · rw [hjob]

/-- The job on the line notes what it met or admitted. -/
theorem Sound.setCurrent (hcurrent : state.current = some index)
    (hlater : later = { state.jobs index with
      hit := later.hit, met := later.met, admitted := later.admitted })
    (hhit : (state.jobs index).kind ≠ .upkeep → later.hit = false → later.met = []) :
    Sound (state.setJob index later) := by
  have hline := hsound.running index hcurrent
  have hlaterLine : later.line = .onLine := by
    rw [hlater]
    exact hline
  refine hsound.setLine (started_of_line hline nofun) ?_ ?_ hhit ?_
    (started_of_line hlaterLine nofun) ?_ fun _ => hlaterLine
  · intro result
    rw [hline]
    exact nofun
  · rw [hlaterLine, ← hline]
    exact hlater
  · rintro - failure (heq | heq)
    · cases hlaterLine.symm.trans heq
    · cases hlaterLine.symm.trans heq
  intro result
  rw [hlaterLine]
  exact nofun

variable {result : Except (Failure ε) α}

/-- The job leaves the line. -/
theorem Sound.leave (hcurrent : state.current = some index)
    (hthrows : (state.jobs index).admitted = true →
      (state.jobs index).kind ≠ .upkeep → ∃ value, result = .ok value) :
    Sound { state.setJob index { state.jobs index with line := .left result } with
      current := none } := by
  have hline := hsound.running index hcurrent
  have hoff : Sound { state with current := none } := { hsound with running := nofun }
  apply hoff.setLine
  · exact started_of_line hline nofun
  · intro other heq
    cases hline.symm.trans heq
  · rfl
  · exact fun hkind => (hsound.standing.fits index hkind).hit
  · rintro hkind failure (heq | heq)
    · cases heq
      by_contra hadmitted
      obtain ⟨value, hvalue⟩ := hthrows (Bool.not_eq_false _ ▸ hadmitted) hkind
      cases hvalue
    · cases heq
  · rfl
  · exact fun other => nofun
  · exact nofun

theorem Sound.onJobEnd (hcurrent : state.current = some index)
    (hkind : (state.jobs index).kind ≠ .upkeep) :
    Sound { state.setJob index { state.jobs index with
      ends := (state.jobs index).ends ++ [state.nextEnd] } with nextEnd := state.nextEnd + 1 } := by
  have hline := hsound.running index hcurrent
  have hindex := hsound.standing.lt_nextIndex hkind
  have hunsettled : ∀ result, (state.jobs index).line ≠ .ran result := by
    intro result
    rw [hline]
    exact nofun
  obtain ⟨job, hjob⟩ : ∃ job, job = { state.jobs index with
      ends := (state.jobs index).ends ++ [state.nextEnd] } := ⟨_, rfl⟩
  have hstages : ∀ chain, job.stage chain = (state.jobs index).stage chain := by
    intro chain
    rw [hjob]
    cases chain <;> rfl
  have hsame : Same (state.jobs index) job := by
    rw [hjob]
    exact ⟨rfl, rfl, rfl, rfl, fun _ => ⟨rfl, rfl⟩⟩
  have htimed := hsound.timed_change hstages
  have hwaits : job.isOutstanding = (state.jobs index).isOutstanding := by
    rw [hjob]
    rfl
  have hprompt : job.Prompt := by
    have hold := hsound.prompt index
    rw [hjob]
    exact ⟨hold.fenced, hold.chosen, hold.ran, hold.published⟩
  rw [← hjob]
  refine ⟨htimed, ?_, hsound.prompt_change hprompt, ?_, hsound.logged_change hsame, ?_,
    hsound.bounded, ?_⟩
  · apply hsound.standing.change hindex hsame.kind hsame.before hsame.fence
    · exact fun hupkeep => absurd hupkeep hkind
    intro _
    rw [hjob]
    exact (hsound.standing.fits index hkind).setEnds hunsettled
  · intro other hother
    apply hsound.running_change _ hother
    intro _
    rw [hjob]
    exact hline
  · exact hsound.outstanding.trans (congrArg Finset.card (waiting_change hwaits).symm)
  obtain ⟨rest, hold, hnew⟩ := @perm_pendingEnds_update _ _ _ state.jobs job _ _ hindex
  have hends : job.ends = (state.jobs index).ends ++ [state.nextEnd] := by
    rw [hjob]
  rw [hends] at hnew
  have hperm := (hold.append_left state.endsRun).symm.trans hsound.ended
  rw [range_succ]
  refine ((hnew.append_left state.endsRun).trans ?_).trans (hperm.append_right [state.nextEnd])
  rw [append_assoc, append_assoc]
  refine List.Perm.append_left _ ?_
  rw [append_assoc]
  refine List.Perm.append_left _ ?_
  exact perm_append_comm

/-- A callback off the line runs at once. -/
theorem Sound.endNow :
    Sound { state with
      nextEnd := state.nextEnd + 1, endsRun := state.endsRun ++ [state.nextEnd] } := by
  refine { hsound with ended := ?_ }
  rw [range_succ, append_assoc]
  refine (List.Perm.append_left _ perm_append_comm).trans ?_
  rw [← append_assoc]
  exact hsound.ended.append_right _

/-- The part of a job's commit settles. -/
theorem Sound.settlePart (hindex : index < state.nextIndex)
    (hadmitted : (state.jobs index).admitted = true) (hpart : (state.jobs index).part = none)
    (result : Except (Failure ε) Unit) : Sound (state.settlePart index result) := by
  obtain ⟨publication, hpublication⟩ : ∃ publication : Stage, publication =
      if (state.jobs index).publication = .blocked then .called (state.tasks.clock + 1)
      else (state.jobs index).publication := ⟨_, rfl⟩
  have hchange : Sound ((state.setJob index
      { state.jobs index with part := some result, publication := publication }).queue index
        (if (state.jobs index).publication = .blocked then [.publication] else [])) := by
    apply hsound.change hindex
    · exact ⟨rfl, rfl, rfl, rfl, fun _ => ⟨rfl, rfl⟩⟩
    · rw [hpublication]
      by_cases hblocked : (state.jobs index).publication = .blocked
      · rw [if_pos hblocked, if_pos hblocked]
        refine ⟨pairwise_singleton _ _, ?_, ?_, nofun⟩
        · intro chain hchain
          obtain rfl := mem_singleton.mp hchain
          refine ⟨rfl, fun _ => ?_⟩
          change (state.jobs index).publication.tick? = none
          rw [hblocked]
          rfl
        intro chain hnot _
        cases chain with
        | publication => exact absurd mem_cons_self hnot
        | _ => rfl
      rw [if_neg hblocked, if_neg hblocked]
      apply Job.moves_none
      intro chain
      cases chain <;> rfl
    · intro hkind
      have hupkeep := hsound.standing.upkeep index hkind
      have hidle : (state.jobs index).publication = .idle := hupkeep.idle .publication
      refine ⟨hupkeep.before, fun chain => ?_, hupkeep.ends⟩
      cases chain with
      | publication =>
        change publication = .idle
        rw [hpublication, hidle, if_neg nofun]
      | outcome => exact hupkeep.idle .outcome
      | fence => exact hupkeep.idle .fence
      | delivery => exact hupkeep.idle .delivery
    · exact fun hkind => (hsound.standing.fits index hkind).settlePart hadmitted hpart hpublication
    · apply (hsound.prompt index).settlePart
      rw [hpublication]
      split
      · exact nofun
      · next hne => exact hne
    · exact hsound.running index
    · rfl
    · rfl
  rw [hpublication] at hchange
  exact { hchange with }

/-- A job's promise settles. -/
theorem Sound.settleRan
    (hline : (state.jobs index).line = .left result) : Sound (state.settleRan index result) := by
  have hindex := hsound.lt_nextIndex hline nofun
  have hoff : state.current = some index → (Line.ran result : Line ε α) = .onLine := by
    intro hcurrent
    cases hline.symm.trans (hsound.running index hcurrent)
  have hbegun : (state.jobs index).started = true := started_of_line hline nofun
  have hidle (hkind : (state.jobs index).kind ≠ .upkeep) : (state.jobs index).outcome = .idle := by
    apply (hsound.standing.fits index hkind).idle
    intro other heq
    cases hline.symm.trans heq
  rw [State.settleRan]
  split
  next hkind =>
    have hupkeep := hsound.standing.upkeep index hkind
    rw [← queue_nil (state.setJob index _) index]
    apply hsound.change hindex
    · exact ⟨rfl, rfl, rfl, rfl, fun _ => ⟨rfl, rfl⟩⟩
    · apply Job.moves_none
      intro chain
      cases chain <;> rfl
    · intro _
      refine ⟨hupkeep.before, fun chain => ?_, hupkeep.ends⟩
      have hstage := hupkeep.idle chain
      cases chain <;> exact hstage
    · exact fun houtcome => absurd hkind houtcome
    · have hold := hsound.prompt index
      exact ⟨hold.fenced, hold.chosen, fun houtcome => absurd hkind houtcome, hold.published⟩
    · exact hoff
    · rw [hbegun]
      rfl
    · rfl
  next hkind =>
    have houtcome : (state.jobs index).kind ≠ .upkeep := by
      rw [hkind]
      exact nofun
    apply hsound.change hindex
    · exact ⟨rfl, rfl, rfl, rfl, fun _ => ⟨rfl, rfl⟩⟩
    · refine ⟨pairwise_singleton _ _, ?_, ?_, nofun⟩
      · intro chain hchain
        obtain rfl := mem_singleton.mp hchain
        refine ⟨rfl, fun _ => ?_⟩
        change (state.jobs index).outcome.tick? = none
        rw [hidle houtcome]
        rfl
      intro chain hnot _
      cases chain with
      | outcome => exact absurd mem_cons_self hnot
      | _ => rfl
    · exact fun hupkeep => absurd hupkeep houtcome
    · intro _
      have hplain : (state.jobs index).kind ≠ .exempt := by
        rw [hkind]
        exact nofun
      exact (hsound.standing.fits index houtcome).settleRan hline (if_neg hplain).symm
    · exact (hsound.prompt index).settleRan
    · exact hoff
    · rw [hbegun]
      rfl
    · rfl
  next hkind =>
    have houtcome : (state.jobs index).kind ≠ .upkeep := by
      rw [hkind]
      exact nofun
    have hdelivery := (hsound.prompt index).chosen hkind (hidle houtcome)
    apply hsound.change hindex
    · refine ⟨rfl, rfl, rfl, ?_, fun hdone => ?_⟩
      · rw [hdelivery]
        rfl
      rw [hdelivery] at hdone
      cases hdone
    · refine ⟨by decide, ?_, ?_, nofun⟩
      · intro chain hchain
        cases chain with
        | outcome =>
          refine ⟨rfl, fun _ => ?_⟩
          change (state.jobs index).outcome.tick? = none
          rw [hidle houtcome]
          rfl
        | delivery =>
          refine ⟨rfl, fun _ => ?_⟩
          change (state.jobs index).delivery.tick? = none
          rw [hdelivery]
          rfl
        | _ => exact absurd hchain (by decide)
      intro chain hnot _
      cases chain with
      | outcome => exact absurd (by decide) hnot
      | delivery => exact absurd (by decide) hnot
      | _ => rfl
    · exact fun hupkeep => absurd hupkeep houtcome
    · intro _
      exact (hsound.standing.fits index houtcome).settleRan hline (if_pos hkind).symm
    · exact (hsound.prompt index).settleRan
    · exact hoff
    · rw [hbegun]
      rfl
    · rfl

end

/-! ### Microtasks -/

theorem advance_finished {settled : Bool} (hnow : stage.tick? = some now)
    (hfinished : (Job.advance now settled stage).1.isFinished = true) :
    stage = .finishing now ∧ (Job.advance now settled stage).1 = .finished now := by
  cases stage with
  | finishing tick =>
    cases hnow
    exact ⟨rfl, rfl⟩
  | adopting tick =>
    rw [Job.advance] at hfinished
    split at hfinished
    · cases hfinished
    · cases hfinished
  | called tick => cases hfinished
  | settling tick => cases hfinished
  | choosing tick => cases hfinished
  | _ => cases hnow

theorem runDelivery_finished {opened : Bool}
    (hnow : job.delivery.tick? = some now)
    (hfinished : (job.runDelivery now opened).job.delivery.isFinished = true) :
    job.delivery = .finishing now ∧
      (job.runDelivery now opened).job = { job with delivery := .finished now } := by
  rw [Job.runDelivery] at hfinished ⊢
  split at hfinished
  · split at hfinished
    · split at hfinished
      · cases hfinished
      · cases hfinished
    split at hfinished
    · cases hfinished
    · cases hfinished
  next hchosen =>
    obtain ⟨hstage, hlater⟩ := advance_finished hnow hfinished
    refine ⟨hstage, ?_⟩
    change { job with delivery := (Job.advance now job.outcome.isFinished job.delivery).1 } = _
    rw [hlater]

theorem finishedAt?_of_not_finished (hfinished : ¬ stage.isFinished = true) :
    stage.finishedAt? = none := by
  cases stage with
  | finished _ => exact absurd rfl hfinished
  | _ => rfl

section Tick

variable {chain : Chain} {popped : Microtasks (Nat × Chain)}

/-- What a microtask does to its job. -/
def effect (state : State ε α κ) (index : Nat) (chain : Chain)
    (popped : Microtasks (Nat × Chain)) : Effect ε α κ :=
  (state.jobs index).react popped.clock (state.opened (state.jobs index).before) chain

/-- The state once a microtask changed its job. -/
def reacted (state : State ε α κ) (index : Nat) (chain : Chain)
    (popped : Microtasks (Nat × Chain)) : State ε α κ :=
  { ({ state with tasks := popped }.setJob index (state.effect index chain popped).job).queue index
      (state.effect index chain popped).queued with
    endsRun := state.endsRun ++ (state.effect index chain popped).ended }

/-- What holds of the job of the microtask that runs. -/
structure Reacts (state : State ε α κ) (index : Nat) (chain : Chain)
    (popped : Microtasks (Nat × Chain)) : Prop where
  outcome : (state.jobs index).kind ≠ .upkeep
  now : ((state.jobs index).stage chain).tick? = some popped.clock
  standing : Standing state.jobs state.nextIndex state.fence popped.clock
  current : ∀ other, (state.jobs other).Current popped.clock
  fits : (state.effect index chain popped).job.Fits popped.clock
    (openedAt state.jobs (state.jobs index).before)
  timed : Timed (state.reacted index chain popped).jobs (state.reacted index chain popped).tasks

section

variable (hsound : Sound state)
include hsound

theorem Sound.reacts (hpop : state.tasks.pop = some ((index, chain), popped)) :
    Reacts state index chain popped := by
  obtain ⟨hrunning, hnow, hcurrent, hclock⟩ := hsound.timed.pop hpop
  have hkind : (state.jobs index).kind ≠ .upkeep := by
    intro hupkeep
    have hidle := (hsound.standing.upkeep index hupkeep).idle chain
    change ((state.jobs index).stage chain).tick? = _ at hnow
    rw [hidle] at hnow
    cases hnow
  have hstanding := hsound.standing.mono hclock
  obtain ⟨hfits, hmoves⟩ := (hstanding.fits index hkind).react (hcurrent index) hnow
    fun before hbefore => hstanding.openedAt_le hbefore
  rw [isSome_openedAt] at hfits hmoves
  exact ⟨hkind, hnow, hstanding, hcurrent, hfits, hrunning.update hmoves⟩

theorem Sound.prompt_reacted (hreacts : Reacts state index chain popped)
    (other : Nat) : ((state.reacted index chain popped).jobs other).Prompt := by
  apply hsound.prompt_change
  have hprompt := (hsound.prompt index).react (hreacts.standing.fits index hreacts.outcome)
    hreacts.now
  rw [isSome_openedAt] at hprompt
  exact hprompt

theorem Sound.running_reacted {other : Nat} (hcurrent : state.current = some other) :
    ((state.reacted index chain popped).jobs other).line = .onLine := by
  apply hsound.running_change _ hcurrent
  intro hself
  exact (Job.react_frame _ _ _ _).2.2.1.trans (hsound.running index hself)

theorem Sound.ended_reacted (hreacts : Reacts state index chain popped) :
    (state.endsRun ++ (state.effect index chain popped).ended ++
      pendingEnds (state.reacted index chain popped).jobs state.nextIndex).Perm
        (range state.nextEnd) := by
  have hindex := hreacts.standing.lt_nextIndex hreacts.outcome
  obtain ⟨rest, hold, hnew⟩ := @perm_pendingEnds_update _ _ _ state.jobs
    (state.effect index chain popped).job _ _ hindex
  have hends : (state.effect index chain popped).ended ++ (state.effect index chain popped).job.ends =
      (state.jobs index).ends := Job.react_ends _ _ _ _
  refine (hnew.append_left _).trans (List.Perm.trans ?_ hsound.ended)
  refine List.Perm.trans ?_ (hold.symm.append_left state.endsRun)
  rw [← hends]
  apply List.Perm.of_eq
  rw [append_assoc, append_assoc]

/-- A reaction that settles no fence and delivers nothing. -/
theorem Sound.reacted_same (hreacts : Reacts state index chain popped)
    (hsame : Same (state.jobs index) (state.effect index chain popped).job) :
    Sound (state.reacted index chain popped) := by
  have hindex := hreacts.standing.lt_nextIndex hreacts.outcome
  have hwaits : (state.effect index chain popped).job.isOutstanding =
      (state.jobs index).isOutstanding := by
    rw [Job.isOutstanding, Job.isOutstanding, hsame.kind, hsame.delivery, Job.started, Job.started,
      effect, (Job.react_frame _ _ _ _).2.2.1]
  refine ⟨hreacts.timed, ?_, hsound.prompt_reacted hreacts,
    fun other hcurrent => hsound.running_reacted hcurrent, hsound.logged_change hsame, ?_,
    hsound.bounded, hsound.ended_reacted hreacts⟩
  · exact hreacts.standing.change hindex hsame.kind hsame.before hsame.fence
      (fun hupkeep => absurd hupkeep hreacts.outcome) fun _ => hreacts.fits
  · exact hsound.outstanding.trans (congrArg Finset.card (waiting_change hwaits).symm)

end

theorem same_outcome (hreacts : Reacts state index .outcome popped) :
    Same (state.jobs index) (state.effect index .outcome popped).job := by
  obtain ⟨hkind, hbefore, -, -⟩ := Job.react_frame (state.jobs index) popped.clock
    (state.opened (state.jobs index).before) .outcome
  obtain ⟨-, hdelivery, hfence⟩ := Job.runOutcome_frame (state.jobs index) popped.clock
  refine ⟨hkind, hbefore, hfence, hdelivery, fun hdone => ?_⟩
  -- A delivered job's outcome settled: its reactions all ran.
  exfalso
  have hunsettled : (state.jobs index).outcome.isFinished = false :=
    Job.isFinished_eq_false_of_tick hreacts.now
  have hfits := (hreacts.standing.fits index hreacts.outcome).deliveryFits
  cases hstage : (state.jobs index).delivery with
  | finished _ =>
    rw [hstage] at hfits
    cases hunsettled.symm.trans hfits
  | _ =>
    rw [hstage] at hdone
    cases hdone

theorem Sound.openFence (hsound : Sound state) (hreacts : Reacts state index .fence popped)
    (hfinished : (state.effect index .fence popped).job.fence.isFinished = true) :
    Sound ((state.reacted index .fence popped).openFence index) := by
  have hnow : (state.jobs index).fence.tick? = some popped.clock := hreacts.now
  obtain ⟨hstage, hlater⟩ := advance_finished hnow hfinished
  have hsettled : (state.effect index .fence popped).job.fence.finishedAt? = some popped.clock :=
    congrArg Stage.finishedAt? hlater
  have hunsettled : (state.jobs index).fence.finishedAt? = none := by
    rw [hstage]
    rfl
  have hfields {β : Type} (read : Job ε α κ → β)
      (hsame : read (state.effect index .fence popped).job = read (state.jobs index)) (other : Nat) :
      read ((state.reacted index .fence popped).jobs other) = read (state.jobs other) :=
    update_congr read hsame other
  have hstanding := @Standing.openFence _ _ _ _ _ _ (state.effect index .fence popped).job _ _
    hreacts.standing hreacts.outcome rfl rfl hunsettled hsettled hreacts.fits
    fun other => hreacts.timed.current other
  have hopened : ∀ other, ((state.reacted index .fence popped).openFence index).jobs other =
      if ((state.reacted index .fence popped).jobs other).before = some index
      then ((state.reacted index .fence popped).jobs other).open_ popped.clock
      else (state.reacted index .fence popped).jobs other := fun _ => rfl
  have hkept {β : Type} (read : Job ε α κ → β)
      (hsame : ∀ job : Job ε α κ, read (job.open_ popped.clock) = read job) (other : Nat) :
      read (((state.reacted index .fence popped).openFence index).jobs other) =
        read ((state.reacted index .fence popped).jobs other) := by
    rw [hopened]
    split
    · exact hsame _
    · rfl
  have hunused : ∀ other, state.nextIndex ≤ other →
      (state.reacted index .fence popped).jobs other = blank := by
    intro other hother
    have hindex := hreacts.standing.lt_nextIndex hreacts.outcome
    have hne : other ≠ index := by omega
    exact (update_of_ne hne _ _).trans (hsound.standing.unused other hother)
  have hlogged : Logged (state.reacted index .fence popped).jobs state.delivered := by
    apply hsound.logged.congr
    · exact hfields (fun job => job.delivery.isFinished) rfl
    · exact fun other _ => ⟨hfields Job.fenced rfl other, hfields Job.value rfl other⟩
    · exact fun _ _ other _ => hfields Job.kind rfl other
  have hdelivery := hkept (fun job => job.delivery.isFinished) fun job => by
    rw [Job.open_]
    dsimp only
    split
    next hblocked =>
      rw [hblocked]
      rfl
    · rfl
  refine ⟨hreacts.timed.openFence hunused, hstanding, ?_, ?_, ?_, ?_, hsound.bounded, ?_⟩
  · intro other
    rw [hopened]
    split
    · exact (hsound.prompt_reacted hreacts other).open_
    · exact hsound.prompt_reacted hreacts other
  · intro other hcurrent
    exact (hkept Job.line (fun _ => rfl) other).trans (hsound.running_reacted hcurrent)
  · apply hlogged.congr hdelivery
    · exact fun other _ => ⟨hkept Job.fenced (fun _ => rfl) other, hkept Job.value (fun _ => rfl) other⟩
    · exact fun _ _ other _ => hkept Job.kind (fun _ => rfl) other
  · have hwaits : ∀ other,
        (((state.reacted index .fence popped).openFence index).jobs other).isOutstanding =
          (state.jobs other).isOutstanding := by
      intro other
      rw [Job.isOutstanding, hkept Job.kind fun _ => rfl, hdelivery, Job.started,
        hkept Job.line fun _ => rfl]
      exact hfields Job.isOutstanding rfl other
    exact hsound.outstanding.trans (congrArg Finset.card (waiting_congr hwaits).symm)
  · rw [pendingEnds_congr (hkept Job.ends fun _ => rfl)]
    exact hsound.ended_reacted hreacts

/-- The job's outcome is delivered. -/
theorem Sound.deliver (hsound : Sound state) (hreacts : Reacts state index .delivery popped)
    (hfinished : (state.effect index .delivery popped).job.delivery.isFinished = true) :
    Sound ((state.reacted index .delivery popped).deliver index) := by
  have hnow : (state.jobs index).delivery.tick? = some popped.clock := hreacts.now
  have hindex := hreacts.standing.lt_nextIndex hreacts.outcome
  obtain ⟨hstage, hlater⟩ := runDelivery_finished hnow hfinished
  have hjob : (state.effect index .delivery popped).job =
      { state.jobs index with delivery := .finished popped.clock } := hlater
  have hself : (state.reacted index .delivery popped).jobs index =
      (state.effect index .delivery popped).job := update_self _ _ _
  have hfits := hreacts.standing.fits index hreacts.outcome
  have hsettled : (state.jobs index).outcome.isFinished = true := by
    have hdelivery := hfits.deliveryFits
    rw [hstage] at hdelivery
    exact hdelivery.1
  have houtcome := hfits.outcomeFits
  rw [Job.OutcomeFits] at houtcome
  obtain ⟨tick, htick⟩ : ∃ tick, (state.jobs index).outcome = .finished tick := by
    cases hfound : (state.jobs index).outcome with
    | finished tick => exact ⟨tick, rfl⟩
    | _ =>
      rw [hfound] at hsettled
      cases hsettled
  rw [htick] at houtcome
  obtain ⟨-, ⟨result, hline⟩, value, hvalue, -⟩ := houtcome
  have hunfinished : (state.jobs index).delivery.isFinished = false := by
    rw [hstage]
    rfl
  have hlogged := @Logged.deliver _ _ _ _ (state.effect index .delivery popped).job _ hsound.logged
    ⟨index, ((state.reacted index .delivery popped).jobs index).fenced,
      (state.reacted index .delivery popped).answer index⟩ hunfinished
    (Job.react_frame _ _ _ _).1 hfinished
  have hfence : (state.effect index .delivery popped).job.fence.finishedAt? =
      (state.jobs index).fence.finishedAt? := by
    rw [hjob]
  have hstanding := hreacts.standing.change hindex (Job.react_frame _ _ _ _).1
    (Job.react_frame _ _ _ _).2.1 hfence
    (fun hupkeep => absurd hupkeep hreacts.outcome) fun _ => hreacts.fits
  refine ⟨hreacts.timed, hstanding, hsound.prompt_reacted hreacts,
    fun other hcurrent => hsound.running_reacted hcurrent, ?_, ?_, ?_,
    hsound.ended_reacted hreacts⟩
  · apply hlogged
    · exact congrArg Job.fenced hself
    · dsimp only
      rw [answer]
      split
      · exact .inl rfl
      right
      rw [hself, hjob]
      rw [hvalue]
      rfl
    intro hfenced earlier hearlier hkind
    have hbehind : (state.jobs index).fenced = true := by
      rw [hself, hjob] at hfenced
      exact hfenced
    exact hreacts.standing.delivered_before hreacts.current hstage hreacts.outcome hbehind
      hearlier hkind
  · have hbefore : (state.jobs index).isOutstanding = true := by
      rw [Job.isOutstanding, decide_eq_true hreacts.outcome, started_of_line hline (by rintro ⟨⟩),
        hunfinished]
      rfl
    have hafter : (state.effect index .delivery popped).job.isOutstanding = false := by
      rw [Job.isOutstanding, hfinished]
      exact Bool.and_false _
    change state.outstanding - 1 = (waiting (update state.jobs index
      (state.effect index .delivery popped).job) state.nextIndex).card
    rw [card_waiting_deliver hindex hbefore hafter, hsound.outstanding]
  · exact le_trans (Nat.sub_le _ _) hsound.bounded

/-- Every microtask keeps the invariant. -/
theorem Sound.tick (hsound : Sound state)
    (hpop : state.tasks.pop = some ((index, chain), popped)) :
    Sound ({ state with tasks := popped }.react index chain) := by
  have hreacts := hsound.reacts hpop
  cases chain with
  | outcome => exact hsound.reacted_same hreacts (same_outcome hreacts)
  | publication =>
    exact hsound.reacted_same hreacts ⟨rfl, rfl, rfl, rfl, fun _ => ⟨rfl, rfl⟩⟩
  | fence =>
    have hstate : { state with tasks := popped }.react index .fence =
        if (state.effect index .fence popped).job.fence.isFinished
        then (state.reacted index .fence popped).openFence index
        else state.reacted index .fence popped := rfl
    rw [hstate]
    split
    · next hfinished => exact hsound.openFence hreacts hfinished
    rename_i hunfinished
    have hnow : (state.jobs index).fence.tick? = some popped.clock := hreacts.now
    apply hsound.reacted_same hreacts
    refine ⟨rfl, rfl, ?_, rfl, fun _ => ⟨rfl, rfl⟩⟩
    rw [finishedAt?_of_not_finished hunfinished, finishedAt?_of_not_finished]
    rw [Job.isFinished_eq_false_of_tick hnow]
    exact nofun
  | delivery =>
    have hstate : { state with tasks := popped }.react index .delivery =
        if (state.effect index .delivery popped).job.delivery.isFinished
        then (state.reacted index .delivery popped).deliver index
        else state.reacted index .delivery popped := rfl
    rw [hstate]
    split
    · next hfinished => exact hsound.deliver hreacts hfinished
    rename_i hunfinished
    have hnow : (state.jobs index).delivery.tick? = some popped.clock := hreacts.now
    have hpending := Job.isFinished_eq_false_of_tick hnow
    obtain ⟨fenced, stage, hjob, -, -⟩ := Job.runDelivery_eq (state.jobs index) popped.clock
      (state.opened (state.jobs index).before)
    obtain ⟨hkind, hbefore, -, -⟩ := Job.react_frame (state.jobs index) popped.clock
      (state.opened (state.jobs index).before) .delivery
    apply hsound.reacted_same hreacts
    refine ⟨hkind, hbefore, ?_, ?_, fun hdone => ?_⟩
    · change ((state.jobs index).runDelivery _ _).job.fence.finishedAt? = _
      rw [hjob]
    · rw [hpending]
      exact Bool.eq_false_iff.mpr hunfinished
    · cases hpending.symm.trans hdone

end Tick

/-! ### Runs -/

/-- Every step keeps the invariant. -/
theorem Sound.step [DecidableEq κ] (hsound : Sound state) {action : Action ε α κ}
    {next : State ε α κ} (hstep : state.step action = some next) : Sound next := by
  cases action with
  | enqueue exempt =>
    obtain ⟨-, rfl⟩ := of_guard hstep
    exact hsound.enqueue exempt
  | maintain =>
    cases hstep
    exact hsound.maintain
  | onLine =>
    rw [State.step] at hstep
    split at hstep
    · cases hstep
    rename_i index hnext
    dsimp only at hstep
    split at hstep
    · cases hstep
    split at hstep
    next hkind =>
      cases hstep
      have hbegun := hsound.begin hnext fun houtcome => absurd hkind houtcome
      rw [if_pos hkind] at hbegun
      exact hbegun
    next hkind =>
      obtain ⟨hroom, rfl⟩ := of_guard hstep
      have hbegun := hsound.begin hnext fun _ => hroom
      rw [if_neg hkind] at hbegun
      exact hbegun
  | touch key =>
    rw [State.step] at hstep
    split at hstep
    · cases hstep
      exact hsound
    rename_i index hcurrent
    split at hstep
    · cases hstep
      exact hsound.setCurrent hcurrent rfl fun _ hhit => by cases hhit
    cases hstep
    exact hsound
  | onJobEnd =>
    rw [State.step] at hstep
    split at hstep
    · cases hstep
      exact hsound.endNow
    rename_i index hcurrent
    dsimp only at hstep
    obtain ⟨hkind, rfl⟩ := of_not_guard hstep
    exact hsound.onJobEnd hcurrent hkind
  | admitKeys keys =>
    rw [State.step] at hstep
    split at hstep
    · cases hstep
    rename_i index hcurrent
    dsimp only at hstep
    obtain ⟨-, rfl⟩ := of_not_guard hstep
    exact { @Sound.setCurrent _ _ _ _ _ { state.jobs index with admitted := true } hsound
      hcurrent rfl fun hkind => (hsound.standing.fits index hkind).hit with }
  | leave result =>
    rw [State.step] at hstep
    split at hstep
    · cases hstep
    rename_i index hcurrent
    dsimp only at hstep
    obtain ⟨hreturns, rfl⟩ := of_not_guard hstep
    apply hsound.leave hcurrent
    intro hadmitted hkind
    cases result with
    | ok value => exact ⟨value, rfl⟩
    | error failure => exact absurd ⟨hadmitted, hkind, rfl⟩ hreturns
  | settle index =>
    rw [State.step] at hstep
    split at hstep
    · split at hstep
      next result hline =>
        cases hstep
        exact hsound.settleRan hline
      · cases hstep
    · cases hstep
  | fail index own =>
    rw [State.step.eq_def] at hstep
    dsimp only at hstep
    split at hstep
    · cases hstep
      exact hsound
    cases hstep
    exact { hsound with }
  | tick =>
    rw [State.step.eq_def] at hstep
    dsimp only at hstep
    split at hstep
    · cases hstep
    next index chain popped hpop =>
      cases hstep
      exact hsound.tick hpop
  | _ =>
    obtain ⟨hpending, rfl⟩ := of_guard hstep
    exact hsound.settlePart hpending.1 hpending.2.1 (Option.isNone_iff_eq_none.mp hpending.2.2) _

theorem sound_run [DecidableEq κ] {actions : List (Action ε α κ)}
    (hrun : run State.step start actions = some state) : Sound state :=
  run_invariant (fun _ _ _ hsound hstep => hsound.step hstep) sound_start hrun

end State

end Hummin.SessionLine
