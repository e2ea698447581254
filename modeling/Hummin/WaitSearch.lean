/-
The search for a wait cycle is exact: it returns a path of the wait-for graph from a member
of `on` to the waiting task, and finds one whenever there is one.
-/
import Mathlib.Data.List.Chain
import Hummin.WaitCycle

namespace Hummin.Scheduler

open List Option

open Relation

namespace Search

variable {starts : TaskId → Prop} {edge : TaskId → TaskId → Prop}
  {entries : List (TaskId × Option TaskId)} {id other : TaskId} {via : Option TaskId}
  {search : Search}

/-! ### Traces -/

/-- Each entry is a start, or comes from an earlier one along an edge. -/
inductive Traced (starts : TaskId → Prop) (edge : TaskId → TaskId → Prop) :
    List (TaskId × Option TaskId) → Prop
  | nil : Traced starts edge []
  | start {entries : List (TaskId × Option TaskId)} {id : TaskId}
      (htraced : Traced starts edge entries) (hnew : id ∉ entries.map Prod.fst)
      (hstart : starts id) : Traced starts edge (entries ++ [(id, none)])
  | via {entries : List (TaskId × Option TaskId)} {id via : TaskId}
      (htraced : Traced starts edge entries) (hnew : id ∉ entries.map Prod.fst)
      (hvia : via ∈ entries.map Prod.fst) (hedge : edge via id) :
      Traced starts edge (entries ++ [(id, some via)])

/-- A path along edges from a start to a task. -/
structure IsPath (starts : TaskId → Prop) (edge : TaskId → TaskId → Prop) (path : List TaskId)
    (last : TaskId) : Prop where
  chain : path.IsChain edge
  first : ∃ first, path.head? = some first ∧ starts first
  last : path.getLast? = some last

theorem isPath_singleton (hstart : starts id) : IsPath starts edge [id] id :=
  ⟨.singleton id, ⟨id, rfl, hstart⟩, rfl⟩

theorem IsPath.snoc {path : List TaskId} (hpath : IsPath starts edge path id)
    (hedge : edge id other) : IsPath starts edge (path ++ [other]) other := by
  obtain ⟨first, hfirst, hstart⟩ := hpath.first
  refine ⟨?_, ⟨first, ?_, hstart⟩, ?_⟩
  · apply List.IsChain.append hpath.chain (.singleton other)
    intro last hlast next hnext
    cases hpath.last.symm.trans hlast
    cases hnext
    exact hedge
  · rw [head?_append, hfirst]
    rfl
  · exact getLast?_concat

theorem find?_snoc (hnew : id ∉ entries.map Prod.fst) (more : List (TaskId × Option TaskId)) :
    ((entries ++ [(id, via)]) ++ more).find? (fun entry => entry.1 = id) = some (id, via) := by
  have hnone : entries.find? (fun entry => entry.1 = id) = none := by
    rw [find?_eq_none]
    intro entry hentry hsame
    exact hnew (mem_map.mpr ⟨entry, hentry, of_decide_eq_true hsame⟩)
  rw [append_assoc, find?_append, hnone, none_or]
  exact find?_cons_of_pos (decide_eq_true rfl)

/-- The steps back from a traced task make a path to it. -/
theorem Traced.exists_pathFrom (htraced : Traced starts edge entries)
    (hid : id ∈ entries.map Prod.fst) {bound : Nat} (hbound : entries.length ≤ bound)
    (more : List (TaskId × Option TaskId)) (steps : List TaskId) :
    ∃ path, pathFrom (entries ++ more) bound id steps = path ++ steps ∧
      IsPath starts edge path id := by
  induction htraced generalizing id bound more steps with
  | nil => cases hid
  | @start entries other _ hnew hstart ih =>
    rw [length_append, length_singleton] at hbound
    rw [map_append, mem_append] at hid
    rcases hid with hearlier | hlast
    · rw [append_assoc]
      exact ih hearlier (Nat.le_of_succ_le hbound) _ steps
    obtain rfl := mem_singleton.mp hlast
    obtain ⟨bound, rfl⟩ := Nat.exists_eq_add_of_le' (le_trans (Nat.le_add_left 1 _) hbound)
    refine ⟨[id], ?_, isPath_singleton hstart⟩
    rw [pathFrom, find?_snoc hnew]
    rfl
  | @via entries other via _ hnew hvia hedge ih =>
    rw [length_append, length_singleton] at hbound
    rw [map_append, mem_append] at hid
    rcases hid with hearlier | hlast
    · rw [append_assoc]
      exact ih hearlier (Nat.le_of_succ_le hbound) _ steps
    obtain rfl := mem_singleton.mp hlast
    obtain ⟨bound, rfl⟩ := Nat.exists_eq_add_of_le' (le_trans (Nat.le_add_left 1 _) hbound)
    obtain ⟨path, hpath, hisPath⟩ := ih hvia (Nat.le_of_succ_le_succ hbound)
      ([(id, some via)] ++ more) (id :: steps)
    refine ⟨path ++ [id], ?_, hisPath.snoc hedge⟩
    rw [pathFrom, find?_snoc hnew]
    dsimp only [Option.bind]
    rw [append_assoc, hpath, append_assoc]
    rfl

/-! ### Reaching tasks -/

def Reached (search : Search) (id : TaskId) : Prop :=
  id ∈ search.origins.map Prod.fst

theorem reached_iff : search.reached id = true ↔ search.Reached id := by
  rw [reached, List.any_eq_true, Reached, List.mem_map]
  constructor
  · rintro ⟨entry, hentry, hsame⟩
    exact ⟨entry, hentry, of_decide_eq_true hsame⟩
  rintro ⟨entry, hentry, hsame⟩
  exact ⟨entry, hentry, decide_eq_true hsame⟩

/-- What reaching a task does. -/
theorem reach_cases (search : Search) (id : TaskId) (via : Option TaskId) :
    (search.Reached id ∧ search.reach id via = search) ∨
      (¬ search.Reached id ∧ search.reach id via = { search with
        origins := search.origins ++ [(id, via)]
        pending := id :: search.pending }) := by
  rw [reach, ← reached_iff]
  split
  · next hreached => exact .inl ⟨hreached, rfl⟩
  · next hnew => exact .inr ⟨hnew, rfl⟩

/-- A search that goes on: what it reached, and what is on its stack, stays. -/
structure GoesOn (search later : Search) : Prop where
  reached : ∀ id, search.Reached id → later.Reached id
  pending : ∀ id, id ∈ search.pending → id ∈ later.pending
  fresh : ∀ id, later.Reached id → search.Reached id ∨ id ∈ later.pending
  walked : later.walked = search.walked

theorem GoesOn.refl (search : Search) : GoesOn search search :=
  ⟨fun _ hid => hid, fun _ hid => hid, fun _ hid => .inl hid, rfl⟩

variable {later : Search}

theorem GoesOn.trans {last : Search} (hfirst : GoesOn search later)
    (hsecond : GoesOn later last) : GoesOn search last := by
  refine ⟨fun id hid => hsecond.reached id (hfirst.reached id hid),
    fun id hid => hsecond.pending id (hfirst.pending id hid), ?_,
    hsecond.walked.trans hfirst.walked⟩
  intro id hid
  rcases hsecond.fresh id hid with hearlier | hpending
  · exact (hfirst.fresh id hearlier).imp_right (hsecond.pending id)
  · exact .inr hpending

theorem goesOn_reach (search : Search) (id : TaskId) (via : Option TaskId) :
    GoesOn search (search.reach id via) ∧ (search.reach id via).Reached id := by
  rcases reach_cases search id via with ⟨hreached, heq⟩ | ⟨-, heq⟩
  · rw [heq]
    exact ⟨.refl search, hreached⟩
  rw [heq]
  refine ⟨⟨?_, fun _ hid => mem_cons_of_mem id hid, ?_, rfl⟩, ?_⟩
  · intro other hother
    rw [Reached, map_append]
    exact mem_append_left _ hother
  · intro other hother
    rw [Reached, map_append] at hother
    rcases mem_append.mp hother with hearlier | hlast
    · exact .inl hearlier
    rw [mem_singleton.mp hlast]
    exact .inr mem_cons_self
  · rw [Reached, map_append]
    exact mem_append_right _ (mem_singleton.mpr rfl)

theorem goesOn_reachAll (search : Search) (ids : List TaskId) (via : Option TaskId) :
    GoesOn search (search.reachAll ids via) ∧ ∀ id ∈ ids, (search.reachAll ids via).Reached id := by
  induction ids generalizing search with
  | nil => exact ⟨.refl search, nofun⟩
  | cons id ids ih =>
    obtain ⟨hfirst, hreached⟩ := goesOn_reach search id via
    obtain ⟨hrest, hall⟩ := ih (search.reach id via)
    refine ⟨hfirst.trans hrest, ?_⟩
    intro other hother
    rcases mem_cons.mp hother with rfl | hlater
    · exact hrest.reached other hreached
    · exact hall other hlater

/-! ### The paths behind a search -/

/-- Every task was reached along a path from a start, and the stack holds reached tasks. -/
structure Sound (starts : TaskId → Prop) (edge : TaskId → TaskId → Prop) (search : Search) : Prop where
  traced : Traced starts edge search.origins
  pending : ∀ id ∈ search.pending, search.Reached id

theorem Sound.path (hsound : Sound starts edge search) (hid : search.Reached id) :
    IsPath starts edge (search.path id) id := by
  obtain ⟨path, hpath, hisPath⟩ := hsound.traced.exists_pathFrom hid le_rfl [] []
  rw [append_nil, append_nil] at hpath
  rw [Search.path, hpath]
  exact hisPath

/-- A task may be reached as a start, or along an edge from a reached task. -/
def Explains (starts : TaskId → Prop) (edge : TaskId → TaskId → Prop) (search : Search)
    (via : Option TaskId) (id : TaskId) : Prop :=
  match via with
  | none => starts id
  | some via => search.Reached via ∧ edge via id

theorem Sound.reach (hsound : Sound starts edge search)
    (hexplains : Explains starts edge search via id) : Sound starts edge (search.reach id via) := by
  obtain ⟨hgoesOn, hreached⟩ := goesOn_reach search id via
  rcases reach_cases search id via with ⟨-, heq⟩ | ⟨hnew, heq⟩
  · rw [heq]
    exact hsound
  constructor
  · rw [heq]
    cases via with
    | none => exact .start hsound.traced hnew hexplains
    | some via => exact .via hsound.traced hnew hexplains.1 hexplains.2
  intro other hother
  rw [heq] at hother
  rcases mem_cons.mp hother with rfl | hearlier
  · exact hreached
  · exact hgoesOn.reached other (hsound.pending other hearlier)

theorem Explains.goesOn (hexplains : Explains starts edge search via id)
    (hgoesOn : GoesOn search later) : Explains starts edge later via id := by
  cases via with
  | none => exact hexplains
  | some via => exact ⟨hgoesOn.reached via hexplains.1, hexplains.2⟩

variable {ids : List TaskId}

theorem Sound.reachAll (hsound : Sound starts edge search)
    (hexplains : ∀ id ∈ ids, Explains starts edge search via id) :
    Sound starts edge (search.reachAll ids via) := by
  induction ids generalizing search with
  | nil => exact hsound
  | cons id ids ih =>
    apply ih (hsound.reach (hexplains id mem_cons_self))
    intro other hother
    exact (hexplains other (mem_cons_of_mem id hother)).goesOn (goesOn_reach search id via).1

/-! ### The end of a search -/

/-- How many of `ids` a search has still to visit. -/
def left (ids : List TaskId) (search : Search) : Nat :=
  (ids.filter fun id => !search.reached id).length + search.pending.length

theorem left_reach (hid : id ∈ ids) : left ids (search.reach id via) ≤ left ids search := by
  obtain ⟨hgoesOn, hreached⟩ := goesOn_reach search id via
  rcases reach_cases search id via with ⟨-, heq⟩ | ⟨hnew, heq⟩
  · rw [heq]
  have hsame : (ids.filter fun other => !(search.reach id via).reached other) =
      (ids.filter fun other => !search.reached other).filter fun other =>
        !(search.reach id via).reached other := by
    rw [List.filter_filter]
    apply filter_congr
    intro other _
    by_cases hother : search.reached other = true
    · rw [reached_iff.mpr (hgoesOn.reached other (reached_iff.mp hother))]
      rfl
    · rw [Bool.eq_false_iff.mpr hother, Bool.not_false, Bool.and_true]
  have hshorter : (ids.filter fun other => !(search.reach id via).reached other).length <
      (ids.filter fun other => !search.reached other).length := by
    rw [hsame, length_filter_lt_length_iff_exists]
    refine ⟨id, mem_filter.mpr ⟨hid, ?_⟩, ?_⟩
    · rw [Bool.not_eq_true', Bool.eq_false_iff]
      exact fun hold => hnew (reached_iff.mp hold)
    rw [reached_iff.mpr hreached]
    exact Bool.false_ne_true
  have hpending : (search.reach id via).pending.length = search.pending.length + 1 := by
    rw [heq]
    rfl
  rw [left, left, hpending]
  omega

theorem left_reachAll {all : List TaskId} (hids : ∀ id ∈ ids, id ∈ all) :
    left all (search.reachAll ids via) ≤ left all search := by
  induction ids generalizing search with
  | nil => exact le_rfl
  | cons id ids ih =>
    have hrest := @ih (search.reach id via) fun other hother =>
      hids other (mem_cons_of_mem id hother)
    exact le_trans hrest (left_reach (hids id mem_cons_self))

/-! ### What a search covers -/

variable {memory : Memory} {stored candidates : Stored} {overlay : Overlay} {task : TaskId}
  {visiting : Option TaskId} {depth : Nat} {on all : List TaskId} {record : TaskRecord}

/-- A search that went past a task reached what the task waits on and the owned work that was
there before the commit. -/
structure Covers (stored candidates : Stored) (task : TaskId) (visiting : Option TaskId)
    (search : Search) : Prop where
  done : ∀ id, search.Reached id → id ∉ search.pending → visiting ≠ some id → id ≠ task ∧
    (candidates.Live id → id ∈ search.walked ∧
      ∀ other, candidates.Awaits id other → search.Reached other)
  walked : ∀ id ∈ search.walked, ∀ other, (stored.tasks other).isSome = true →
    candidates.Owns id other → search.Reached other

theorem Covers.goesOn (hcovers : Covers stored candidates task visiting search)
    (hgoesOn : GoesOn search later) : Covers stored candidates task visiting later := by
  constructor
  · intro id hid hpending hvisiting
    have hearlier := (hgoesOn.fresh id hid).resolve_right hpending
    obtain ⟨hne, hlive⟩ := hcovers.done id hearlier (fun hold => hpending (hgoesOn.pending id hold))
      hvisiting
    refine ⟨hne, fun hid => ?_⟩
    obtain ⟨hwalked, hawaits⟩ := hlive hid
    refine ⟨hgoesOn.walked ▸ hwalked, fun other hother => ?_⟩
    exact hgoesOn.reached other (hawaits other hother)
  intro id hid other hold howns
  rw [hgoesOn.walked] at hid
  exact hgoesOn.reached other (hcovers.walked id hid other hold howns)

theorem Covers.pop {pending : List TaskId} (hcovers : Covers stored candidates task none search)
    (hpending : search.pending = id :: pending) :
    Covers stored candidates task (some id) { search with pending := pending } := by
  refine ⟨fun other hother hnot hvisiting => ?_, hcovers.walked⟩
  apply hcovers.done other hother _ nofun
  rw [hpending]
  exact not_mem_cons_of_ne_of_not_mem (fun heq => hvisiting (congrArg some heq.symm)) hnot

theorem Covers.visited (hcovers : Covers stored candidates task (some id) search) (hne : id ≠ task)
    (hlive : candidates.Live id → id ∈ search.walked ∧
      ∀ other, candidates.Awaits id other → search.Reached other) :
    Covers stored candidates task none search := by
  refine ⟨fun other hother hnot _ => ?_, hcovers.walked⟩
  by_cases hid : id = other
  · subst hid
    exact ⟨hne, hlive⟩
  · exact hcovers.done other hother hnot fun heq => hid (some.inj heq)

section Staged

variable (hstaged : Memory.Staged memory stored candidates overlay)

include hstaged

/-- A walk covers the owned work of its task, and of the tasks it found. -/
theorem Covers.walkOwned (hcovers : Covers stored candidates task visiting search)
    (hdepth : candidates.nextId ≤ depth) :
    Covers stored candidates task visiting (search.walkOwned memory depth overlay id) := by
  let found := memory.ownedLive depth overlay (search.walked ++ [id]) id
  obtain ⟨hgoesOn, hfound⟩ := goesOn_reachAll search found (some id)
  have hgone := hcovers.goesOn hgoesOn
  have howned : ∀ other, (stored.tasks other).isSome = true → candidates.Owns id other →
      (search.reachAll found (some id)).Reached other := by
    intro other hold howns
    rcases hstaged.mem_ownedLive_or hdepth hold howns with hother | ⟨passed, hpassed, hreaches, hbelow⟩
    · exact hfound other hother
    rcases mem_append.mp hpassed with hwalked | hself
    · exact hgoesOn.reached other (hcovers.walked passed hwalked other hold hbelow)
    rw [mem_singleton.mp hself] at hreaches
    exact absurd (hreaches.lt hstaged.candidateForest) (lt_irrefl _)
  constructor
  · intro other hother hpending hvisiting
    obtain ⟨hne, hlive⟩ := hgone.done other hother hpending hvisiting
    refine ⟨hne, fun hid => ?_⟩
    obtain ⟨hwalked, hawaits⟩ := hlive hid
    rw [hgoesOn.walked] at hwalked
    exact ⟨mem_append_left _ (mem_append_left _ hwalked), hawaits⟩
  intro owner howner other hold howns
  rcases mem_append.mp howner with hwalked | hnew
  · rcases mem_append.mp hwalked with hearlier | hself
    · exact hgoesOn.reached other (hcovers.walked owner hearlier other hold howns)
    rw [mem_singleton.mp hself] at howns
    exact howned other hold howns
  · exact howned other hold ((hstaged.owns_of_mem_ownedLive hnew).trans howns)

theorem Sound.walkOwned (hsound : Sound (· ∈ on) candidates.LeadsTo search)
    (hid : search.Reached id) (hlive : candidates.Live id) :
    Sound (· ∈ on) candidates.LeadsTo (search.walkOwned memory depth overlay id) := by
  have hreached : Sound (· ∈ on) candidates.LeadsTo
      (search.reachAll (memory.ownedLive depth overlay (search.walked ++ [id]) id) (some id)) :=
    hsound.reachAll fun other hother =>
      ⟨hid, hlive, .inr (hstaged.owns_of_mem_ownedLive hother)⟩
  exact ⟨hreached.traced, hreached.pending⟩

theorem left_walkOwned (hdepth : candidates.nextId ≤ depth) (hall : ∀ id < depth, id ∈ all) :
    left all (search.walkOwned memory depth overlay id) ≤ left all search := by
  apply left_reachAll
  intro other hother
  obtain ⟨record, hrecord, -⟩ := hstaged.owns_of_mem_ownedLive hother
  exact hall other (lt_of_lt_of_le (hstaged.candidateForest.taskBound other record hrecord)
    hdepth)

theorem live_of_recordIn (hrecord : memory.recordIn overlay id = some record)
    (hstate : record.state ≠ .terminal) : candidates.Live id :=
  ⟨record, hstaged.tasks_of_recordIn hrecord, bne_iff_ne.mpr hstate⟩

theorem Covers.visitAwaited (hcovers : Covers stored candidates task visiting search)
    (hrecord : memory.recordIn overlay id = some record) :
    Covers stored candidates task visiting (search.visitAwaited id record) ∧
      GoesOn search (search.visitAwaited id record) ∧
      ∀ other, candidates.Awaits id other → (search.visitAwaited id record).Reached other := by
  have hcandidate := hstaged.tasks_of_recordIn hrecord
  have hgoesOn : GoesOn search (search.visitAwaited id record) := by
    rw [Search.visitAwaited]
    split
    · split
      · exact .refl search
      · exact (goesOn_reachAll search _ _).1
    · exact .refl search
  refine ⟨hcovers.goesOn hgoesOn, hgoesOn, ?_⟩
  rintro other ⟨found, on, policy, hfound, hstate, hmark, hother⟩
  cases hcandidate.symm.trans hfound
  rw [Search.visitAwaited, hstate]
  rw [hmark]
  exact (goesOn_reachAll search on (some id)).2 other hother

theorem Sound.visitAwaited (hsound : Sound (· ∈ on) candidates.LeadsTo search)
    (hid : search.Reached id) (hrecord : memory.recordIn overlay id = some record) :
    Sound (· ∈ on) candidates.LeadsTo (search.visitAwaited id record) := by
  rw [Search.visitAwaited]
  split
  next members policy hstate =>
    split
    · exact hsound
    rename_i hmark
    apply hsound.reachAll
    intro other hother
    have hlive := live_of_recordIn hstaged hrecord (by rw [hstate]; nofun)
    exact ⟨hid, hlive, .inl ⟨record, members, policy, hstaged.tasks_of_recordIn hrecord, hstate,
      Bool.eq_false_iff.mpr hmark, hother⟩⟩
  · exact hsound

theorem left_visitAwaited (hnames : candidates.Names) (hdepth : candidates.nextId ≤ depth)
    (hall : ∀ id < depth, id ∈ all) (hrecord : memory.recordIn overlay id = some record) :
    left all (search.visitAwaited id record) ≤ left all search := by
  rw [Search.visitAwaited]
  split
  next members policy hstate =>
    split
    · exact le_rfl
    apply left_reachAll
    intro other hother
    have hnamed := hnames id record members policy (hstaged.tasks_of_recordIn hrecord) hstate
      other hother
    apply hall other
    exact lt_of_lt_of_le
      (@Stored.Forest.bound_of_has _ hstaged.candidateForest (.task other) hnamed) hdepth
  · exact le_rfl

/-- Visiting a live task covers it. -/
theorem visit_live (hsound : Sound (· ∈ on) candidates.LeadsTo search)
    (hcovers : Covers stored candidates task (some id) search) (hnames : candidates.Names)
    (hdepth : candidates.nextId ≤ depth) (hall : ∀ id < depth, id ∈ all)
    (hid : search.Reached id) (hne : id ≠ task)
    (hrecord : memory.recordIn overlay id = some record) (hstate : record.state ≠ .terminal)
    {later : Search} (hlater : later =
      if id ∈ (search.visitAwaited id record).walked then search.visitAwaited id record
      else (search.visitAwaited id record).walkOwned memory depth overlay id) :
    Sound (· ∈ on) candidates.LeadsTo later ∧ Covers stored candidates task none later ∧
      left all later ≤ left all search ∧ ∀ other, search.Reached other → later.Reached other := by
  have hlive := live_of_recordIn hstaged hrecord hstate
  obtain ⟨hawaited, hgoesOn, hawaits⟩ := hcovers.visitAwaited hstaged hrecord
  have hsoundAwaited := hsound.visitAwaited hstaged hid hrecord
  have hleft : left all (search.visitAwaited id record) ≤ left all search :=
    left_visitAwaited hstaged hnames hdepth hall hrecord
  rw [hlater]
  split
  next hwalked =>
    exact ⟨hsoundAwaited, hawaited.visited hne fun _ => ⟨hwalked, hawaits⟩, hleft, hgoesOn.reached⟩
  obtain ⟨hon, -⟩ := goesOn_reachAll (search.visitAwaited id record)
    (memory.ownedLive depth overlay ((search.visitAwaited id record).walked ++ [id]) id) (some id)
  refine ⟨hsoundAwaited.walkOwned hstaged (hgoesOn.reached id hid) hlive,
    (hawaited.walkOwned hstaged hdepth).visited hne fun _ => ⟨?_, ?_⟩,
    le_trans (left_walkOwned hstaged hdepth hall) hleft, ?_⟩
  · exact mem_append_left _ (mem_append_right _ (mem_singleton.mpr rfl))
  · exact fun other hother => hon.reached other (hawaits other hother)
  · exact fun other hother => hon.reached other (hgoesOn.reached other hother)

/-- The search from its stack ends: with a path to the task, or with everything covered. -/
theorem waitCycleFrom_cases {bound : Nat} (hsound : Sound (· ∈ on) candidates.LeadsTo search)
    (hcovers : Covers stored candidates task none search) (hnames : candidates.Names)
    (hdepth : candidates.nextId ≤ depth) (hall : ∀ id < depth, id ∈ all)
    (hbound : left all search < bound) :
    (∃ path, memory.waitCycleFrom depth overlay task bound search = some path ∧
      IsPath (· ∈ on) candidates.LeadsTo path task) ∨
    (memory.waitCycleFrom depth overlay task bound search = none ∧
      ∃ final, Covers stored candidates task none final ∧ final.pending = [] ∧
        ∀ id, search.Reached id → final.Reached id) := by
  induction bound generalizing search with
  | zero => exact absurd hbound (Nat.not_lt_zero _)
  | succ bound ih =>
    rw [Memory.waitCycleFrom]
    split
    · next hpending => exact .inr ⟨rfl, search, hcovers, hpending, fun _ hid => hid⟩
    rename_i id pending hpending
    have hreached := hsound.pending id (hpending ▸ mem_cons_self)
    have hpopped : Sound (· ∈ on) candidates.LeadsTo { search with pending := pending } :=
      ⟨hsound.traced, fun other hother =>
        hsound.pending other (hpending ▸ mem_cons_of_mem id hother)⟩
    have hpoppedCovers := hcovers.pop hpending
    have hleft : left all { search with pending := pending } < bound := by
      have hlength := congrArg length hpending
      rw [length_cons] at hlength
      rw [left] at hbound ⊢
      have hsame : (all.filter fun other =>
          !Search.reached { search with pending := pending } other) =
          all.filter fun other => !search.reached other := rfl
      rw [hsame]
      dsimp only
      omega
    split
    next heq =>
      subst heq
      exact .inl ⟨_, rfl, hpopped.path hreached⟩
    rename_i hne
    split
    next hnone =>
      have hdead : ¬ candidates.Live id := by
        rintro ⟨record, hrecord, hlive⟩
        cases hnone.symm.trans (hstaged.recordIn_of_live hrecord hlive)
      exact ih hpopped (hpoppedCovers.visited hne fun hlive => absurd hlive hdead) hleft
    rename_i record hrecord
    split
    next hstate =>
      have hdead : ¬ candidates.Live id := by
        rintro ⟨found, hfound, hlive⟩
        obtain rfl := some.inj
          ((hstaged.tasks_of_recordIn hrecord).symm.trans hfound)
        exact bne_iff_ne.mp hlive hstate
      exact ih hpopped (hpoppedCovers.visited hne fun hlive => absurd hlive hdead)
        hleft
    next hstate =>
      obtain ⟨hlater, hlaterCovers, hlaterLeft, hmono⟩ := visit_live hstaged hpopped
        hpoppedCovers hnames hdepth hall hreached hne hrecord hstate rfl
      rcases ih hlater hlaterCovers (lt_of_le_of_lt hlaterLeft hleft) with
        hpath | ⟨hnone, final, hfinal, hempty, hrest⟩
      · exact .inl hpath
      exact .inr ⟨hnone, final, hfinal, hempty, fun other hother =>
        hrest other (hmono other hother)⟩

/-- Once everything is covered, no reached task leads to the waiting one. -/
theorem Covers.not_reached (hcovers : Covers stored candidates task none search)
    (hpending : search.pending = []) (hold : (stored.tasks task).isSome = true)
    (hpath : ReflTransGen candidates.LeadsTo id task) : ¬ search.Reached id := by
  have hdone : ∀ other, search.Reached other → other ≠ task ∧
      (candidates.Live other → other ∈ search.walked ∧
        ∀ next, candidates.Awaits other next → search.Reached next) := by
    intro other hother
    exact hcovers.done other hother (hpending ▸ not_mem_nil) nofun
  -- Every task on the path was there before the commit.
  suffices hboth : (stored.tasks id).isSome = true ∧ ¬ search.Reached id from hboth.2
  induction hpath using ReflTransGen.head_induction_on with
  | refl => exact ⟨hold, fun hreached => (hdone task hreached).1 rfl⟩
  | @head id next hedge _ ih =>
    refine ⟨hstaged.old_of_leadsTo hedge ih.1, fun hreached => ih.2 ?_⟩
    obtain ⟨hwalked, hawaits⟩ := (hdone id hreached).2 hedge.1
    rcases hedge.2 with hawaited | howned
    · exact hawaits next hawaited
    · exact hcovers.walked id hwalked next ih.1 howned

end Staged

end Search

/-! ### The wait-for graph -/

namespace Stored

variable {stored : Stored} {id last : TaskId}

end Stored

variable {path : List TaskId}

/-- A path of the wait-for graph from a member of `on` to a live task. -/
theorem Search.IsPath.waitsFor {stored : Stored} {on : List TaskId} {task : TaskId}
    (hpath : IsPath (· ∈ on) stored.LeadsTo path task) (hlive : stored.Live task) :
    IsPath (· ∈ on) stored.WaitsFor path task := by
  refine ⟨?_, hpath.first, hpath.last⟩
  obtain ⟨hchain, -, hlast⟩ := hpath
  induction path with
  | nil => exact .nil
  | cons first path ih =>
    cases path with
    | nil => exact .singleton first
    | cons second path =>
      obtain ⟨hedge, hrest⟩ := isChain_cons_cons.mp hchain
      have hrestLast : (second :: path).getLast? = some task := by
        rw [← hlast, getLast?_cons_cons]
      apply isChain_cons_cons.mpr
      refine ⟨hedge.waitsFor ?_, ih hrest hrestLast⟩
      -- The second task is the last one, or leads on.
      cases path with
      | nil =>
        cases hrestLast
        exact hlive
      | cons third path => exact (isChain_cons_cons.mp hrest).1.1

theorem Search.IsPath.exists_reflTransGen {starts : TaskId → Prop}
    {edge : TaskId → TaskId → Prop} {task : TaskId} (hpath : IsPath starts edge path task) :
    ∃ member, starts member ∧ ReflTransGen edge member task := by
  obtain ⟨first, hfirst, hstart⟩ := hpath.first
  refine ⟨first, hstart, ?_⟩
  obtain ⟨hchain, -, hlast⟩ := hpath
  clear hstart
  induction path generalizing first with
  | nil => cases hfirst
  | cons other path ih =>
    cases hfirst
    cases path with
    | nil =>
      cases hlast
      exact .refl
    | cons second path =>
      obtain ⟨hedge, hrest⟩ := isChain_cons_cons.mp hchain
      rw [getLast?_cons_cons] at hlast
      exact (ih second rfl hrest hlast).head hedge

namespace Memory.Staged

variable {memory : Memory} {stored candidates : Stored} {overlay : Overlay} {task : TaskId}
  {depth : Nat}

/-- The search returns a path of the wait-for graph, under the commit's candidates, exactly
when a member of `on` leads to the waiting task there. -/
theorem waitCycle_exact (hstaged : Staged memory stored candidates overlay)
    (hnames : stored.Names) (hdepth : candidates.nextId ≤ depth) (hlive : stored.Live task)
    (on : List TaskId) :
    (∀ path, memory.waitCycle depth overlay task on = some path →
      Search.IsPath (· ∈ on) candidates.WaitsFor path task) ∧
    ((memory.waitCycle depth overlay task on).isSome = true ↔
      ∃ member ∈ on, ReflTransGen candidates.WaitsFor member task) := by
  have hold := hlive.exists_isSome
  have hcandidate : candidates.Live task := by
    obtain ⟨record, hrecord, hisLive⟩ := hlive
    exact ⟨record, (hstaged.tasks_of_old hold).trans hrecord, hisLive⟩
  let start := Search.reachAll ⟨[], [], []⟩ on none
  obtain ⟨hgoesOn, hreached⟩ := Search.goesOn_reachAll ⟨[], [], []⟩ on none
  have hsound : Search.Sound (· ∈ on) candidates.LeadsTo start :=
    Search.Sound.reachAll ⟨.nil, nofun⟩ fun member hmember => hmember
  have hcovers : Search.Covers stored candidates task none start :=
    Search.Covers.goesOn ⟨fun _ hid => absurd hid not_mem_nil,
      fun _ hid => absurd hid not_mem_nil⟩ hgoesOn
  have hall : ∀ id < depth, id ∈ range depth ++ on := fun id hid =>
    mem_append_left _ (mem_range.mpr hid)
  have hleft : Search.left (range depth ++ on) start < depth + on.length + 1 := by
    apply Nat.lt_succ_of_le
    refine le_trans (Search.left_reachAll fun id hid => mem_append_right _ hid) ?_
    refine le_trans (Nat.add_le_add_right (length_filter_le _ _) _) ?_
    rw [length_append, length_range]
    exact le_rfl
  have hcases := Search.waitCycleFrom_cases hstaged hsound hcovers (hstaged.candidateNames hnames)
    hdepth hall hleft
  rw [show memory.waitCycleFrom depth overlay task (depth + on.length + 1) start =
    memory.waitCycle depth overlay task on from rfl] at hcases
  rcases hcases with ⟨path, hpath, hisPath⟩ | ⟨hnone, final, hfinal, hempty, hrest⟩
  · have hwaits := hisPath.waitsFor hcandidate
    refine ⟨fun found hfound => ?_, ?_⟩
    · cases hpath.symm.trans hfound
      exact hwaits
    rw [hpath, isSome_some]
    exact ⟨fun _ => hwaits.exists_reflTransGen, fun _ => rfl⟩
  refine ⟨fun found hfound => ?_, ?_⟩
  · cases hnone.symm.trans hfound
  rw [hnone, isSome_none]
  refine ⟨nofun, ?_⟩
  rintro ⟨member, hmember, hback⟩
  have hleads : ReflTransGen candidates.LeadsTo member task :=
    ReflTransGen.mono (fun _ _ hedge => hedge.leadsTo) _ _ hback
  exact absurd (hrest member (hreached member hmember))
    (hfinal.not_reached hstaged hempty hold hleads)

end Memory.Staged

end Hummin.Scheduler
