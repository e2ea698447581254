/-
The wait-for graph over the live tasks of a store.  An edge runs from each task to what it
waits on and to its live ordinary owned work.
-/
import Hummin.OwnedWork

namespace Hummin.Scheduler

open Option

namespace Stored

variable {stored next : Stored} {start node up : Node} {id other last : TaskId}

def Live (stored : Stored) (id : TaskId) : Prop :=
  ∃ record, stored.tasks id = some record ∧ record.isLive = true

/-- A waiting task waits on the members of its `on` while it has no abort mark. -/
def Awaits (stored : Stored) (id member : TaskId) : Prop :=
  ∃ record on policy, stored.tasks id = some record ∧ record.state = .waiting on policy ∧
    record.abortRequested = false ∧ member ∈ on

/-- Live ordinary owned work: a live task that is not background, which ordinary traversal
from its owner reaches. -/
def Owns (stored : Stored) (owner id : TaskId) : Prop :=
  ∃ record, stored.tasks id = some record ∧ record.isLive = true ∧ record.background = false ∧
    stored.Reaches (.task owner) (.task id)

/-- An edge of the wait-for graph: the first task cannot settle before the second. -/
def WaitsFor (stored : Stored) (id other : TaskId) : Prop :=
  stored.Live id ∧ stored.Live other ∧ (stored.Awaits id other ∨ stored.Owns id other)

/-- What a search goes on to from a task; a task waited on may have ended. -/
def LeadsTo (stored : Stored) (id other : TaskId) : Prop :=
  stored.Live id ∧ (stored.Awaits id other ∨ stored.Owns id other)

/-- The tasks a wait names exist. -/
def Names (stored : Stored) : Prop :=
  ∀ id record on policy, stored.tasks id = some record → record.state = .waiting on policy →
    ∀ member ∈ on, (stored.tasks member).isSome = true

theorem Live.exists_isSome (hlive : stored.Live id) : (stored.tasks id).isSome = true := by
  obtain ⟨record, hrecord, -⟩ := hlive
  exact isSome_iff_exists.mpr ⟨record, hrecord⟩

theorem Owns.live (howns : stored.Owns id other) : stored.Live other := by
  obtain ⟨record, hrecord, hlive, -⟩ := howns
  exact ⟨record, hrecord, hlive⟩

theorem WaitsFor.leadsTo (hedge : stored.WaitsFor id other) : stored.LeadsTo id other :=
  ⟨hedge.1, hedge.2.2⟩

theorem LeadsTo.waitsFor (hedge : stored.LeadsTo id other) (hlive : stored.Live other) :
    stored.WaitsFor id other :=
  ⟨hedge.1, hlive, hedge.2⟩

/-! ### Ordinary traversal -/

theorem Forest.parent_lt (hforest : Forest stored) (hparent : stored.parent node = some (some up)) :
    up.id < node.id ∧ node.id < stored.nextId := by
  cases node with
  | task id =>
    obtain ⟨record, hrecord, hup⟩ := map_eq_some_iff.mp hparent
    cases hup
    exact ⟨(hforest.taskParent id record hrecord).2, hforest.taskBound id record hrecord⟩
  | conversation id =>
    obtain ⟨owner, howner, hup⟩ := map_eq_some_iff.mp hparent
    obtain ⟨task, rfl, rfl⟩ := map_eq_some_iff.mp hup
    exact ⟨(hforest.owner id task howner).2, hforest.edgeBound id _ howner⟩

theorem Forest.has_parent (hforest : Forest stored)
    (hparent : stored.parent node = some (some up)) : stored.has up = true := by
  cases node with
  | task id =>
    obtain ⟨record, hrecord, hup⟩ := map_eq_some_iff.mp hparent
    cases hup
    exact (hforest.taskParent id record hrecord).1
  | conversation id =>
    obtain ⟨owner, howner, hup⟩ := map_eq_some_iff.mp hparent
    obtain ⟨task, rfl, rfl⟩ := map_eq_some_iff.mp hup
    exact (hforest.owner id task howner).1

/-- Work lies below what was minted before it. -/
theorem Reaches.lt (hreaches : stored.Reaches start node) (hforest : Forest stored) :
    start.id < node.id := by
  induction hreaches with
  | child hparent => exact (hforest.parent_lt hparent).1
  | through _ _ hparent ih => exact Nat.lt_trans ih (hforest.parent_lt hparent).1

theorem Reaches.trans {middle : Node} (hfirst : stored.Reaches start middle)
    (hopens : stored.opens middle = true) (hsecond : stored.Reaches middle node) :
    stored.Reaches start node := by
  induction hsecond with
  | child hparent => exact .through hfirst hopens hparent
  | through _ hup hparent ih => exact .through ih hup hparent

theorem opens_of_ordinary {record : TaskRecord} (hrecord : stored.tasks id = some record)
    (hordinary : record.background = false) : stored.opens (.task id) = true := by
  rw [opens, hrecord]
  dsimp only
  rw [hordinary]
  rfl

/-- The owned work of owned work is owned. -/
theorem Owns.trans (hfirst : stored.Owns id other) (hsecond : stored.Owns other last) :
    stored.Owns id last := by
  obtain ⟨record, hrecord, -, hordinary, hreaches⟩ := hfirst
  obtain ⟨found, hfound, hlive, hbelow, hrest⟩ := hsecond
  exact ⟨found, hfound, hlive, hbelow, hreaches.trans (opens_of_ordinary hrecord hordinary) hrest⟩

/-- What was stored keeps its place. -/
theorem Grows.parent (hgrows : Grows stored next) {found : Option Node}
    (hparent : stored.parent node = some found) : next.parent node = some found := by
  cases node with
  | task id =>
    obtain ⟨record, hrecord, rfl⟩ := map_eq_some_iff.mp hparent
    obtain ⟨later, hlater, hsame, -⟩ := hgrows.task id record hrecord
    rw [parent, hlater, map_some, hsame]
  | conversation id =>
    obtain ⟨owner, howner, rfl⟩ := map_eq_some_iff.mp hparent
    rw [parent, hgrows.edge id owner howner, map_some]

theorem exists_parent_of_has (hnode : stored.has node = true) :
    ∃ found, stored.parent node = some found := by
  cases node with
  | task id =>
    obtain ⟨record, hrecord⟩ := isSome_iff_exists.mp hnode
    exact ⟨_, by rw [parent, hrecord]; rfl⟩
  | conversation id =>
    obtain ⟨owner, howner⟩ := isSome_iff_exists.mp hnode
    exact ⟨_, by rw [parent, howner]; rfl⟩

/-- Above what was stored nothing new appears. -/
theorem Forest.parent_of_grows (hforest : Forest stored) (hgrows : Grows stored next)
    (hnode : stored.has node = true) (hparent : next.parent node = some (some up)) :
    stored.parent node = some (some up) ∧ stored.has up = true := by
  obtain ⟨found, hfound⟩ := exists_parent_of_has hnode
  cases (hgrows.parent hfound).symm.trans hparent
  exact ⟨hfound, hforest.has_parent hfound⟩

theorem Reaches.has_start (hreaches : next.Reaches start node) (hforest : Forest stored)
    (hgrows : Grows stored next) (hnode : stored.has node = true) : stored.has start = true := by
  induction hreaches with
  | child hparent => exact (hforest.parent_of_grows hgrows hnode hparent).2
  | through _ _ hparent ih => exact ih (hforest.parent_of_grows hgrows hnode hparent).2

end Stored

end Hummin.Scheduler
