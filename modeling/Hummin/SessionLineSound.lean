/-
What holds of the jobs on the Session line in every state: each queued reaction is due, each
job stands where the fence before it allows, and the fences link the jobs with outcomes in
line order.
-/
import Hummin.SessionLineMoves

namespace Hummin.SessionLine

open List Function

variable {ε α κ : Type} {jobs : Nat → Job ε α κ} {tasks popped : Microtasks (Nat × Chain)}
  {index nextIndex : Nat} {later : Job ε α κ} {running : Option Chain} {queued : List Chain}

/-- The tick a chain finished in. -/
def Stage.finishedAt? : Stage → Option Nat
  | .finished tick => some tick
  | _ => none

/-- The tick the fence behind a job settled in; the first is settled from the start. -/
def openedAt (jobs : Nat → Job ε α κ) : Option Nat → Option Nat
  | none => some 0
  | some index => (jobs index).fence.finishedAt?

def dueTick (jobs : Nat → Job ε α κ) (task : Nat × Chain) : Option Nat :=
  ((jobs task.1).stage task.2).tick?

theorem Stage.isSome_finishedAt? (stage : Stage) : stage.finishedAt?.isSome = stage.isFinished := by
  cases stage <;> rfl

theorem isSome_openedAt (state : State ε α κ) (before : Option Nat) :
    (openedAt state.jobs before).isSome = state.opened before := by
  cases before with
  | none => rfl
  | some index => exact Stage.isSome_finishedAt? _

/-! ### The queue -/

/-- Every reaction that is due is queued, and nothing else is. -/
structure Timed (jobs : Nat → Job ε α κ) (tasks : Microtasks (Nat × Chain)) : Prop where
  ticking : tasks.Ticking
  due : tasks.Matches (dueTick jobs)

theorem Timed.current (htimed : Timed jobs tasks) (index : Nat) :
    (jobs index).Current tasks.clock := by
  intro chain tick htick
  exact htimed.ticking.current (tick, (index, chain)) ((htimed.due tick (index, chain)).mpr htick)

/-- What is due but for the reaction that runs. -/
def dueBut (jobs : Nat → Job ε α κ) (index : Nat) (running : Option Chain) (task : Nat × Chain) :
    Option Nat :=
  if task.1 = index ∧ running = some task.2 then none else dueTick jobs task

/-- The queue while a reaction runs. -/
structure Running (jobs : Nat → Job ε α κ) (index : Nat) (running : Option Chain)
    (tasks : Microtasks (Nat × Chain)) : Prop where
  ticking : tasks.Ticking
  due : tasks.Matches (dueBut jobs index running)

theorem Timed.atRest (htimed : Timed jobs tasks) : Running jobs index none tasks := by
  refine ⟨htimed.ticking, fun tick task => ?_⟩
  rw [dueBut, if_neg fun hboth => nomatch hboth.2]
  exact htimed.due tick task

theorem Timed.pop (htimed : Timed jobs tasks) {chain : Chain}
    (hpop : tasks.pop = some ((index, chain), popped)) :
    Running jobs index (some chain) popped ∧ dueTick jobs (index, chain) = some popped.clock ∧
      (∀ other, (jobs other).Current popped.clock) ∧ tasks.clock ≤ popped.clock := by
  obtain ⟨hticking, hclock, -, -⟩ := htimed.ticking.pop hpop
  obtain ⟨hnow, hrest⟩ := htimed.due.pop htimed.ticking hpop
  refine ⟨⟨hticking, ?_⟩, hnow, ?_, hclock⟩
  · rintro tick ⟨other, found⟩
    rw [hrest, dueBut]
    by_cases hsame : other = index ∧ some chain = some found
    · obtain ⟨rfl, hfound⟩ := hsame
      cases hfound
      rw [if_pos ⟨rfl, rfl⟩]
      exact ⟨fun hboth => absurd rfl hboth.1, nofun⟩
    rw [if_neg hsame]
    refine ⟨fun hboth => hboth.2, fun hdue => ⟨fun heq => hsame ?_, hdue⟩⟩
    cases heq
    exact ⟨rfl, rfl⟩
  intro other found tick htick
  by_cases hsame : (other, found) = (index, chain)
  · cases hsame
    cases htick.symm.trans hnow
    exact ⟨le_rfl, Nat.le_succ _⟩
  · exact hticking.current _ ((hrest tick (other, found)).mpr ⟨hsame, htick⟩)

theorem nodup_map_pair (hqueued : queued.Nodup) :
    (queued.map fun chain => (index, chain)).Nodup :=
  hqueued.map fun _ _ heq => (Prod.mk.inj heq).2

theorem mem_map_pair {task : Nat × Chain} :
    task ∈ (queued.map fun chain => (index, chain)) ↔ task.1 = index ∧ task.2 ∈ queued := by
  rw [mem_map]
  constructor
  · rintro ⟨chain, hchain, rfl⟩
    exact ⟨rfl, hchain⟩
  rintro ⟨rfl, hchain⟩
  exact ⟨task.2, hchain, rfl⟩

/-- A change of a job that queues what it makes due. -/
theorem Running.update (hrunning : Running jobs index running tasks)
    (hmoves : Job.Moves tasks.clock running (jobs index) later queued) :
    Timed (update jobs index later)
      (tasks.pushAll (queued.map fun chain => (index, chain))) := by
  have hfree : ∀ task ∈ queued.map fun chain => (index, chain),
      dueBut jobs index running task = none := by
    rintro ⟨other, chain⟩ htask
    obtain ⟨hother, hchain⟩ := mem_map_pair.mp htask
    subst hother
    rw [dueBut]
    split
    · rfl
    next hnot =>
      exact (hmoves.next chain hchain).2 fun heq => hnot ⟨rfl, heq⟩
  refine ⟨hrunning.ticking.pushAll (nodup_map_pair hmoves.distinct) ?_,
    hrunning.due.pushAll ?_ hfree ?_⟩
  · intro task htask tick hold
    have hdue := (hrunning.due tick task).mp hold
    rw [hfree task htask] at hdue
    cases hdue
  · rintro ⟨other, chain⟩ htask
    obtain ⟨hother, hchain⟩ := mem_map_pair.mp htask
    subst hother
    rw [dueTick, update_self]
    exact (hmoves.next chain hchain).1
  rintro ⟨other, chain⟩ htask
  rw [mem_map_pair] at htask
  by_cases hother : other = index
  · subst hother
    have hchain : chain ∉ queued := fun hchain => htask ⟨rfl, hchain⟩
    rw [dueTick, update_self, dueBut]
    split
    · next hran => exact hmoves.ran chain hchain hran.2
    · next hnot => exact hmoves.kept chain hchain fun heq => hnot ⟨rfl, heq⟩
  rw [dueTick, update_of_ne hother, dueBut, if_neg fun hboth => hother hboth.1]
  rfl

/-- The fence behind a job settled. -/
theorem Timed.openFence (htimed : Timed jobs tasks)
    (hunused : ∀ other, nextIndex ≤ other → jobs other = State.blank) :
    Timed (fun other => if (jobs other).before = some index then (jobs other).open_ tasks.clock
        else jobs other)
      (tasks.pushAll (((range nextIndex).filter fun other =>
        (jobs other).before = some index).flatMap fun other =>
          (jobs other).opens.map fun chain => (other, chain))) := by
  have hmem : ∀ task : Nat × Chain,
      task ∈ (((range nextIndex).filter fun other =>
        (jobs other).before = some index).flatMap fun other =>
          (jobs other).opens.map fun chain => (other, chain)) ↔
      (jobs task.1).before = some index ∧ task.2 ∈ (jobs task.1).opens := by
    intro task
    rw [mem_flatMap]
    constructor
    · rintro ⟨other, hother, htask⟩
      obtain ⟨rfl, hchain⟩ := mem_map_pair.mp htask
      rw [mem_filter, decide_eq_true_eq] at hother
      exact ⟨hother.2, hchain⟩
    rintro ⟨hbefore, hchain⟩
    refine ⟨task.1, mem_filter.mpr ⟨mem_range.mpr ?_, decide_eq_true hbefore⟩,
      mem_map_pair.mpr ⟨rfl, hchain⟩⟩
    by_contra hout
    rw [hunused task.1 (Nat.le_of_not_lt hout)] at hbefore
    cases hbefore
  have hmoves : ∀ other, Job.Moves tasks.clock none (jobs other) ((jobs other).open_ tasks.clock)
      (jobs other).opens := fun other => Job.moves_open
  have hfree : ∀ task : Nat × Chain, task ∈ (((range nextIndex).filter fun other =>
        (jobs other).before = some index).flatMap fun other =>
          (jobs other).opens.map fun chain => (other, chain)) → dueTick jobs task = none :=
    fun task htask => ((hmoves task.1).next task.2 ((hmem task).mp htask).2).2 nofun
  refine ⟨htimed.ticking.pushAll ?_ ?_, htimed.due.pushAll ?_ hfree ?_⟩
  · rw [nodup_flatMap]
    refine ⟨fun other _ => nodup_map_pair (hmoves other).distinct, ?_⟩
    apply (nodup_range.filter _).imp
    intro first second hne task hfirst hsecond
    exact hne ((mem_map_pair.mp hfirst).1.symm.trans (mem_map_pair.mp hsecond).1)
  · intro task htask tick hold
    have hdue := (htimed.due tick task).mp hold
    rw [hfree task htask] at hdue
    cases hdue
  · intro task htask
    obtain ⟨hbefore, hchain⟩ := (hmem task).mp htask
    rw [dueTick, if_pos hbefore]
    exact ((hmoves task.1).next task.2 hchain).1
  intro task htask
  rw [hmem] at htask
  rw [dueTick]
  split
  · next hbefore => exact (hmoves task.1).kept task.2 (fun hchain => htask ⟨hbefore, hchain⟩) nofun
  · rfl

/-! ### The jobs -/

/-- What a change of a job leaves as it was in that job, it leaves in all. -/
theorem update_congr {β : Type} (read : Job ε α κ → β) (hsame : read later = read (jobs index))
    (other : Nat) : read (update jobs index later other) = read (jobs other) := by
  by_cases hother : other = index
  · rw [hother, update_self, hsame]
  · rw [update_of_ne hother]

/-- The last job with an outcome before a place in line. -/
def LastBefore (jobs : Nat → Job ε α κ) (bound : Nat) : Option Nat → Prop
  | none => ∀ index < bound, (jobs index).kind = .upkeep
  | some last => last < bound ∧ (jobs last).kind ≠ .upkeep ∧
      ∀ index < bound, (jobs index).kind ≠ .upkeep → index ≤ last

theorem LastBefore.congr {others : Nat → Job ε α κ} {bound : Nat} {before : Option Nat}
    (hlast : LastBefore jobs bound before)
    (hkind : ∀ index < bound, (others index).kind = (jobs index).kind) :
    LastBefore others bound before := by
  cases before with
  | none =>
    intro index hindex
    rw [hkind index hindex]
    exact hlast index hindex
  | some last =>
    obtain ⟨hbound, houtcome, hall⟩ := hlast
    refine ⟨hbound, ?_, fun index hindex => ?_⟩
    · rw [hkind last hbound]
      exact houtcome
    rw [hkind index hindex]
    exact hall index hindex

/-- A job of the Session's own upkeep has no chains. -/
structure Job.IsUpkeep (job : Job ε α κ) : Prop where
  before : job.before = none
  idle : ∀ chain, job.stage chain = .idle
  ends : job.ends = []

/-- Where the jobs stand in a tick. -/
structure Standing (jobs : Nat → Job ε α κ) (nextIndex : Nat) (fence : Option Nat) (clock : Nat) :
    Prop where
  past : ∀ index tick, (jobs index).fence.finishedAt? = some tick → tick ≤ clock
  unused : ∀ index, nextIndex ≤ index → jobs index = State.blank
  upkeep : ∀ index, (jobs index).kind = .upkeep → (jobs index).IsUpkeep
  fits : ∀ index, (jobs index).kind ≠ .upkeep →
    (jobs index).Fits clock (openedAt jobs (jobs index).before)
  behind : ∀ index, (jobs index).kind ≠ .upkeep → LastBefore jobs index (jobs index).before
  last : LastBefore jobs nextIndex fence

section

variable {fence : Option Nat} {clock : Nat}

section

variable (hstanding : Standing jobs nextIndex fence clock)
include hstanding

theorem Standing.mono {later : Nat}
    (hlater : clock ≤ later) : Standing jobs nextIndex fence later :=
  { hstanding with
    past := fun index tick htick => le_trans (hstanding.past index tick htick) hlater
    fits := fun index hkind => (hstanding.fits index hkind).mono hlater }

theorem Standing.openedAt_le {before : Option Nat}
    {tick : Nat} (htick : openedAt jobs before = some tick) : tick ≤ clock := by
  cases before with
  | none =>
    cases htick
    exact Nat.zero_le _
  | some index => exact hstanding.past index tick htick

theorem Standing.lt_nextIndex (hkind : (jobs index).kind ≠ .upkeep) : index < nextIndex := by
  by_contra hout
  apply hkind
  rw [hstanding.unused index (Nat.le_of_not_lt hout)]
  rfl

/-- A change of a job that leaves its fence unsettled, or settled as it was. -/
theorem Standing.change (hindex : index < nextIndex) (hkind : later.kind = (jobs index).kind)
    (hbefore : later.before = (jobs index).before)
    (hfinished : later.fence.finishedAt? = (jobs index).fence.finishedAt?)
    (hupkeep : (jobs index).kind = .upkeep → later.IsUpkeep) (hfits : (jobs index).kind ≠ .upkeep →
      later.Fits clock (openedAt jobs (jobs index).before)) :
    Standing (update jobs index later) nextIndex fence clock := by
  have hkinds := update_congr Job.kind hkind
  have hbefores := update_congr Job.before hbefore
  have hfences : ∀ other, (update jobs index later other).fence.finishedAt? =
      (jobs other).fence.finishedAt? := update_congr (fun job => job.fence.finishedAt?) hfinished
  have hopened : openedAt (update jobs index later) = openedAt jobs := by
    funext before
    cases before with
    | none => rfl
    | some other => exact hfences other
  refine ⟨?_, ?_, ?_, ?_, ?_, hstanding.last.congr fun other _ => hkinds other⟩
  · intro other tick htick
    rw [hfences] at htick
    exact hstanding.past other tick htick
  · intro other hother
    have hne : other ≠ index := by omega
    rw [update_of_ne hne]
    exact hstanding.unused other hother
  · intro other hother
    rw [hkinds] at hother
    by_cases hsame : other = index
    · subst hsame
      rw [update_self]
      exact hupkeep hother
    rw [update_of_ne hsame]
    exact hstanding.upkeep other hother
  · intro other hother
    rw [hkinds] at hother
    rw [hopened, hbefores]
    by_cases hsame : other = index
    · subst hsame
      rw [update_self]
      exact hfits hother
    rw [update_of_ne hsame]
    exact hstanding.fits other hother
  intro other hother
  rw [hkinds] at hother
  rw [hbefores]
  exact (hstanding.behind other hother).congr fun found _ => hkinds found

/-- A job of the Session's own upkeep takes the next place. -/
theorem Standing.maintain : Standing jobs (nextIndex + 1) fence clock := by
  have hkind : (jobs nextIndex).kind = .upkeep := by
    rw [hstanding.unused nextIndex le_rfl]
    rfl
  refine { hstanding with
    unused := fun index hindex => hstanding.unused index (Nat.le_of_succ_le hindex), last := ?_ }
  have hlast := hstanding.last
  cases fence with
  | none =>
    intro index hindex
    rcases Nat.lt_succ_iff_lt_or_eq.mp hindex with hlt | rfl
    · exact hlast index hlt
    · exact hkind
  | some last =>
    refine ⟨Nat.lt_succ_of_lt hlast.1, hlast.2.1, fun index hindex houtcome => ?_⟩
    rcases Nat.lt_succ_iff_lt_or_eq.mp hindex with hlt | rfl
    · exact hlast.2.2 index hlt houtcome
    · exact absurd hkind houtcome

/-- A job with an outcome takes the next place, behind the fence. -/
theorem Standing.enqueue (hkind : later.kind ≠ .upkeep) (hbefore : later.before = fence)
    (hfinished : later.fence.finishedAt? = none) (hfits : later.Fits clock (openedAt jobs fence)) :
    Standing (update jobs nextIndex later) (nextIndex + 1) (some nextIndex) clock := by
  have hkinds : ∀ bound, bound ≤ nextIndex → ∀ index < bound,
      (update jobs nextIndex later index).kind = (jobs index).kind := by
    intro bound hbound index hindex
    have hne : index ≠ nextIndex := by omega
    rw [update_of_ne hne]
  have hopened : openedAt (update jobs nextIndex later) = openedAt jobs := by
    funext before
    cases before with
    | none => rfl
    | some index =>
      rw [openedAt, openedAt]
      by_cases hindex : index = nextIndex
      · rw [hindex, update_self, hfinished, hstanding.unused nextIndex le_rfl]
        rfl
      · rw [update_of_ne hindex]
  refine ⟨?_, ?_, ?_, ?_, ?_, ?_⟩
  · intro index tick htick
    by_cases hindex : index = nextIndex
    · rw [hindex, update_self, hfinished] at htick
      cases htick
    rw [update_of_ne hindex] at htick
    exact hstanding.past index tick htick
  · intro index hindex
    have hne : index ≠ nextIndex := by omega
    rw [update_of_ne hne]
    exact hstanding.unused index (Nat.le_of_succ_le hindex)
  · intro index hindex
    by_cases hsame : index = nextIndex
    · rw [hsame, update_self] at hindex
      exact absurd hindex hkind
    rw [update_of_ne hsame] at hindex ⊢
    exact hstanding.upkeep index hindex
  · intro index hindex
    rw [hopened]
    by_cases hsame : index = nextIndex
    · rw [hsame, update_self, hbefore]
      exact hfits
    rw [update_of_ne hsame] at hindex ⊢
    exact hstanding.fits index hindex
  · intro index hindex
    by_cases hsame : index = nextIndex
    · rw [hsame, update_self, hbefore]
      exact hstanding.last.congr (hkinds nextIndex le_rfl)
    rw [update_of_ne hsame] at hindex ⊢
    apply (hstanding.behind index hindex).congr
    exact hkinds index (le_of_lt (hstanding.lt_nextIndex hindex))
  · refine ⟨Nat.lt_succ_self _, ?_, fun index hindex _ => Nat.le_of_lt_succ hindex⟩
    rw [update_self]
    exact hkind

end

theorem finishedAt?_open (job : Job ε α κ) :
    (job.open_ clock).fence.finishedAt? = job.fence.finishedAt? := by
  rw [Job.open_]
  split
  next hblocked =>
    rw [hblocked]
    rfl
  · rfl

/-- The fence behind a job settles in the current tick: the job after it goes on. -/
theorem Standing.openFence (hstanding : Standing jobs nextIndex fence clock)
    (houtcome : (jobs index).kind ≠ .upkeep) (hkind : later.kind = (jobs index).kind)
    (hbefore : later.before = (jobs index).before)
    (hunfinished : (jobs index).fence.finishedAt? = none)
    (hfinished : later.fence.finishedAt? = some clock)
    (hfits : later.Fits clock (openedAt jobs (jobs index).before))
    (hcurrent : ∀ other, (update jobs index later other).Current clock) :
    Standing (fun other => if (update jobs index later other).before = some index
        then (update jobs index later other).open_ clock
        else update jobs index later other) nextIndex fence clock := by
  have hindex := hstanding.lt_nextIndex houtcome
  -- The job itself is not behind its own fence.
  have hself : (jobs index).before ≠ some index := by
    intro heq
    have hbehind := hstanding.behind index houtcome
    rw [heq] at hbehind
    exact lt_irrefl _ hbehind.1
  have hkinds := update_congr Job.kind hkind
  have hbefores := update_congr Job.before hbefore
  obtain ⟨after, hafter⟩ : ∃ after : Nat → Job ε α κ, after = fun other =>
      if (update jobs index later other).before = some index
        then (update jobs index later other).open_ clock
        else update jobs index later other := ⟨_, rfl⟩
  rw [← hafter]
  have hat : ∀ other, after other = if (jobs other).before = some index
      then (update jobs index later other).open_ clock
      else update jobs index later other := by
    intro other
    rw [hafter, ← hbefores other]
  have hafterKinds : ∀ other, (after other).kind = (jobs other).kind := by
    intro other
    rw [hat]
    split
    · exact hkinds other
    · exact hkinds other
  have hafterBefores : ∀ other, (after other).before = (jobs other).before := by
    intro other
    rw [hat]
    split
    · exact hbefores other
    · exact hbefores other
  have hafterFences : ∀ other, (after other).fence.finishedAt? =
      (update jobs index later other).fence.finishedAt? := by
    intro other
    rw [hat]
    split
    · exact finishedAt?_open _
    · rfl
  have hopened : ∀ before, before ≠ some index → openedAt after before = openedAt jobs before := by
    intro before hne
    cases before with
    | none => rfl
    | some other =>
      have hother : other ≠ index := fun heq => hne (congrArg some heq)
      rw [openedAt, hafterFences, update_of_ne hother]
      rfl
  refine ⟨?_, ?_, ?_, ?_, ?_, hstanding.last.congr fun other _ => hafterKinds other⟩
  · intro other tick htick
    rw [hafterFences] at htick
    by_cases hother : other = index
    · rw [hother, update_self, hfinished] at htick
      exact le_of_eq (Option.some.inj htick).symm
    rw [update_of_ne hother] at htick
    exact hstanding.past other tick htick
  · intro other hother
    have hne : other ≠ index := by omega
    have hblank := hstanding.unused other hother
    have hnone : (jobs other).before ≠ some index := by
      rw [hblank]
      exact nofun
    rw [hat, if_neg hnone, update_of_ne hne]
    exact hblank
  · intro other hother
    rw [hafterKinds] at hother
    have hne : other ≠ index := fun heq => houtcome (heq ▸ hother)
    have hupkeep := hstanding.upkeep other hother
    have hnone : (jobs other).before ≠ some index := by
      rw [hupkeep.before]
      exact nofun
    rw [hat, if_neg hnone, update_of_ne hne]
    exact hupkeep
  · intro other hother
    rw [hafterKinds] at hother
    rw [hafterBefores]
    by_cases hbehind : (jobs other).before = some index
    · have hne : other ≠ index := fun heq => hself (heq ▸ hbehind)
      have hnow : openedAt after (some index) = some clock := by
        rw [openedAt, hafterFences, update_self, hfinished]
      have hold := hstanding.fits other hother
      have hnone : openedAt jobs (some index) = none := hunfinished
      rw [hbehind, hnone] at hold
      have hnext := hcurrent other
      rw [update_of_ne hne] at hnext
      rw [hbehind, hnow, hat, if_pos hbehind, update_of_ne hne]
      exact hold.open_ hnext
    rw [hopened _ hbehind, hat, if_neg hbehind]
    by_cases hsame : other = index
    · subst hsame
      rw [update_self]
      exact hfits
    rw [update_of_ne hsame]
    exact hstanding.fits other hother
  · intro other hother
    rw [hafterKinds] at hother
    rw [hafterBefores]
    exact (hstanding.behind other hother).congr fun found _ => hafterKinds found

end

end Hummin.SessionLine
