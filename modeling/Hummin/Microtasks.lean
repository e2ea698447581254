/-
A queue of microtasks.  Tasks run in the order they came; what a task queues runs a tick
after it, so every queued task belongs to the current tick or the next.
-/
import Mathlib.Data.List.Pairwise
import Mathlib.Logic.Function.Basic

namespace Hummin

open List

universe u

/-- The queue, each task with its tick, and the tick of the task that ran last. -/
structure Microtasks (τ : Type u) where
  clock : Nat
  queue : List (Nat × τ)

namespace Microtasks

variable {τ : Type u} {tasks : Microtasks τ} {task other : τ} {tick : Nat}
  {rest : List (Nat × τ)} {due later : τ → Option Nat}

def pushAll (tasks : Microtasks τ) (pushed : List τ) : Microtasks τ :=
  { tasks with queue := tasks.queue ++ pushed.map fun task => (tasks.clock + 1, task) }

/-- The first task, and the queue while it runs. -/
def pop (tasks : Microtasks τ) : Option (τ × Microtasks τ) :=
  match tasks.queue with
  | [] => none
  | (tick, task) :: rest => some (task, ⟨tick, rest⟩)

/-- Ticks grow along the queue, and no task is queued twice. -/
structure Ticking (tasks : Microtasks τ) : Prop where
  sorted : (tasks.queue.map Prod.fst).Pairwise (· ≤ ·)
  current : ∀ entry ∈ tasks.queue, tasks.clock ≤ entry.1 ∧ entry.1 ≤ tasks.clock + 1
  distinct : (tasks.queue.map Prod.snd).Nodup

variable {pushed : List τ}

theorem mem_queue_pushAll :
    (tick, task) ∈ (tasks.pushAll pushed).queue ↔
      (tick, task) ∈ tasks.queue ∨ (tick = tasks.clock + 1 ∧ task ∈ pushed) := by
  rw [pushAll, mem_append, mem_map]
  constructor
  · rintro (hold | ⟨found, hfound, heq⟩)
    · exact .inl hold
    cases heq
    exact .inr ⟨rfl, hfound⟩
  rintro (hold | ⟨rfl, hpushed⟩)
  · exact .inl hold
  · exact .inr ⟨task, hpushed, rfl⟩

theorem Ticking.pushAll (hticking : Ticking tasks) (hdistinct : pushed.Nodup)
    (hnew : ∀ task ∈ pushed, ∀ tick, (tick, task) ∉ tasks.queue) :
    Ticking (tasks.pushAll pushed) := by
  have hticks : ((tasks.pushAll pushed).queue.map Prod.fst) =
      tasks.queue.map Prod.fst ++ pushed.map fun _ => tasks.clock + 1 := by
    rw [Microtasks.pushAll, map_append, map_map]
    rfl
  have hnames : ((tasks.pushAll pushed).queue.map Prod.snd) = tasks.queue.map Prod.snd ++ pushed := by
    rw [Microtasks.pushAll, map_append, map_map]
    congr 1
    exact map_id _
  refine ⟨?_, ?_, ?_⟩
  · rw [hticks, pairwise_append]
    refine ⟨hticking.sorted, ?_, ?_⟩
    · rw [pairwise_map]
      exact pairwise_of_forall fun _ _ => Nat.le_refl _
    intro first hfirst second hsecond
    obtain ⟨entry, hentry, rfl⟩ := mem_map.mp hfirst
    obtain ⟨_, -, rfl⟩ := mem_map.mp hsecond
    exact (hticking.current entry hentry).2
  · rintro ⟨tick, task⟩ hentry
    rcases mem_queue_pushAll.mp hentry with hold | ⟨rfl, -⟩
    · exact hticking.current _ hold
    · exact ⟨Nat.le_succ _, Nat.le_refl _⟩
  rw [hnames, nodup_append]
  refine ⟨hticking.distinct, hdistinct, ?_⟩
  intro first hfirst second hsecond heq
  obtain ⟨entry, hentry, rfl⟩ := mem_map.mp hfirst
  subst heq
  exact hnew entry.2 hsecond entry.1 hentry

variable {popped : Microtasks τ}

theorem pop_eq_some (hpop : tasks.pop = some (task, popped)) :
    tasks.queue = (popped.clock, task) :: popped.queue := by
  rw [pop] at hpop
  split at hpop
  · cases hpop
  next tick found rest hqueue =>
    cases hpop
    exact hqueue

/-- The first task's tick is the least, and the rest of the queue belongs to it or the next. -/
theorem Ticking.pop (hticking : Ticking tasks) (hpop : tasks.pop = some (task, popped)) :
    Ticking popped ∧ tasks.clock ≤ popped.clock ∧ popped.clock ≤ tasks.clock + 1 ∧
      ∀ tick, (tick, task) ∉ popped.queue := by
  have hqueue := pop_eq_some hpop
  have hsorted := hticking.sorted
  have hdistinct := hticking.distinct
  rw [hqueue, map_cons, pairwise_cons] at hsorted
  rw [hqueue, map_cons, nodup_cons] at hdistinct
  have hfirst := hticking.current (popped.clock, task) (hqueue ▸ mem_cons_self)
  refine ⟨⟨hsorted.2, ?_, hdistinct.2⟩, hfirst.1, hfirst.2, ?_⟩
  · intro entry hentry
    have hlater := hticking.current entry (hqueue ▸ mem_cons_of_mem _ hentry)
    refine ⟨hsorted.1 entry.1 (mem_map_of_mem hentry), ?_⟩
    exact Nat.le_trans hlater.2 (Nat.succ_le_succ hfirst.1)
  intro tick htask
  exact hdistinct.1 (mem_map.mpr ⟨(tick, task), htask, rfl⟩)

/-! ### Queues and what is due -/

/-- A task is queued for a tick exactly when it is due then. -/
def Matches (tasks : Microtasks τ) (due : τ → Option Nat) : Prop :=
  ∀ tick task, (tick, task) ∈ tasks.queue ↔ due task = some tick

theorem Matches.pushAll (hmatches : Matches tasks due)
    (hpushed : ∀ task ∈ pushed, later task = some (tasks.clock + 1))
    (hfree : ∀ task ∈ pushed, due task = none)
    (hkept : ∀ task, task ∉ pushed → later task = due task) :
    Matches (tasks.pushAll pushed) later := by
  intro tick task
  rw [mem_queue_pushAll]
  by_cases htask : task ∈ pushed
  · rw [hpushed task htask]
    constructor
    · rintro (hold | ⟨rfl, -⟩)
      · rw [hmatches, hfree task htask] at hold
        cases hold
      · rfl
    intro heq
    exact .inr ⟨(Option.some.inj heq).symm, htask⟩
  rw [hkept task htask, hmatches]
  constructor
  · rintro (hold | ⟨-, hnew⟩)
    · exact hold
    · exact absurd hnew htask
  · exact .inl

theorem Matches.pop (hmatches : Matches tasks due) (hticking : Ticking tasks)
    (hpop : tasks.pop = some (task, popped)) :
    due task = some popped.clock ∧
      ∀ tick other, (tick, other) ∈ popped.queue ↔ other ≠ task ∧ due other = some tick := by
  have hqueue := pop_eq_some hpop
  obtain ⟨-, -, -, hgone⟩ := hticking.pop hpop
  refine ⟨(hmatches _ _).mp (hqueue ▸ mem_cons_self), ?_⟩
  intro tick other
  rw [← hmatches, hqueue, mem_cons]
  constructor
  · intro hother
    refine ⟨?_, .inr hother⟩
    rintro rfl
    exact hgone tick hother
  rintro ⟨hne, heq | hother⟩
  · exact absurd (Prod.mk.inj heq).2 hne
  · exact hother

end Microtasks

end Hummin
