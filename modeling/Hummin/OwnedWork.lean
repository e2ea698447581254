/-
Walks down the ownership tree: the tasks below a node that ordinary traversal reaches, with
a commit's candidates in place of committed records.
-/
import Hummin.TreeWalk
import Hummin.OwnershipForest

namespace Hummin.Scheduler

open Option

/-- One task a walk down reaches: its ownership fields, and its record while it is live. -/
structure Visit where
  id : TaskId
  node : TaskNode
  live : Option TaskRecord
deriving DecidableEq

/-- The links of a commit's new tasks, by parent node. -/
abbrev Links := Node → List Node

namespace Memory

/-- A task's candidate record, or its committed one while it is live. -/
def recordIn (memory : Memory) (overlay : Overlay) (id : TaskId) : Option TaskRecord :=
  match overlay.task id with
  | some record => some record
  | none => memory.live id

def nodeIn (memory : Memory) (overlay : Overlay) (id : TaskId) : Option TaskNode :=
  match memory.recordIn overlay id with
  | some record => some record.toTaskNode
  | none => memory.settled id

/-- The node above one a link leads to, unless the link needs none above it. -/
def linkAbove (memory : Memory) (overlay : Overlay) : Node → Option (Option Node)
  | .conversation id => (memory.edge overlay id).map fun owner => owner.map Node.task
  | .task id =>
    if (memory.live id).isSome || (overlay.task id).isSome then none
    else (memory.settled id).map fun node => some (parentNode node)

/-- A link of a new task, then of each node above it that `below` does not list yet, until
one it lists, a live task, or the chain's end. -/
def linkFrom (memory : Memory) (overlay : Overlay) : Nat → Links → Node → Node → Links
  | 0, links, _, _ => links
  | bound + 1, links, child, parent =>
    if child ∈ links parent then links
    else
      let linked := Function.update links parent (links parent ++ [child])
      match memory.linkAbove overlay parent with
      | some (some above) =>
        if parent ∈ memory.below above then linked
        else linkFrom memory overlay bound linked parent above
      | _ => linked

/-- The links walks down need for the commit's new tasks. -/
def links (memory : Memory) (overlay : Overlay) : Links :=
  (Commit.records overlay).foldl
    (fun links record =>
      if (memory.live record.id).isSome || (memory.settled record.id).isSome then links
      else memory.linkFrom overlay record.id links (.task record.id)
        (parentNode record.toTaskNode))
    fun _ => []

def childrenIn (memory : Memory) (overlay : Overlay) (node : Node) : List Node :=
  memory.below node ++ memory.links overlay node

def visit (memory : Memory) (overlay : Overlay) : Node → Option Visit
  | .conversation _ => none
  | .task id => (memory.nodeIn overlay id).map fun node =>
    ⟨id, node, (memory.recordIn overlay id).filter TaskRecord.isLive⟩

/-- Background tasks are reached but not entered, unless `crossBackground`, and neither are
the tasks `enter` rejects. -/
def enters (memory : Memory) (overlay : Overlay) (crossBackground : Bool) (enter : TaskId → Bool) :
    Node → Bool
  | .conversation _ => true
  | .task id =>
    match memory.nodeIn overlay id with
    | none => false
    | some node => (crossBackground || !node.background) && enter id

/-- The tasks below `start` that a walk down reaches.  Children have larger ids, which bounds
its depth. -/
def walkDown (memory : Memory) (depth : Nat) (overlay : Overlay) (crossBackground : Bool)
    (enter : TaskId → Bool) (start : Node) : List Visit :=
  (TreeWalk.walk (memory.childrenIn overlay) (memory.enters overlay crossBackground enter) depth
    start).filterMap (memory.visit overlay)

/-- Live ordinary work: neither ended nor background. -/
def Visit.ordinary (visit : Visit) : Bool :=
  visit.live.isSome && !visit.node.background

/-- The live ordinary owned work of `owner`; the walk does not enter tasks in `done`. -/
def ownedLive (memory : Memory) (depth : Nat) (overlay : Overlay) (done : List TaskId)
    (owner : TaskId) : List TaskId :=
  ((memory.walkDown depth overlay false (fun id => decide (id ∉ done)) (.task owner)).filter
    Visit.ordinary).map Scheduler.Visit.id

end Memory

namespace Stored

/-- What a stored node hangs from; `some none` for an ownerless conversation. -/
def parent (stored : Stored) : Node → Option (Option Node)
  | .task id => (stored.tasks id).map fun record => some (parentNode record.toTaskNode)
  | .conversation id => (stored.conversations id).map fun owner => owner.map Node.task

/-- Ordinary traversal goes on below every node but a background task. -/
def opens (stored : Stored) : Node → Bool
  | .conversation _ => true
  | .task id =>
    match stored.tasks id with
    | none => false
    | some record => !record.background

/-- Ordinary traversal from `start` reaches a node. -/
inductive Reaches (stored : Stored) (start : Node) : Node → Prop
  | child {node : Node} (hparent : stored.parent node = some (some start)) :
      Reaches stored start node
  | through {up node : Node} (hup : Reaches stored start up) (hopens : stored.opens up = true)
      (hparent : stored.parent node = some (some up)) : Reaches stored start node

end Stored

namespace Memory

variable {memory : Memory} {stored : Stored} {overlay : Overlay} {start node up : Node}
  {enter : TaskId → Bool}

theorem Agrees.parent (hagrees : Agrees memory stored) {found : Option Node}
    (hfound : memory.parent node = some found) : stored.parent node = some found := by
  cases node with
  | task id =>
    rw [Memory.parent, map_eq_some_iff] at hfound
    obtain ⟨fields, hfields, rfl⟩ := hfound
    obtain ⟨record, hrecord, rfl⟩ := hagrees.fields id fields hfields
    rw [Stored.parent, hrecord, map_some]
  | conversation id =>
    rw [Memory.parent, map_eq_some_iff] at hfound
    obtain ⟨owner, howner, rfl⟩ := hfound
    rw [Stored.parent, hagrees.edge id owner howner, map_some]

/-- A rooted node hangs where it is stored, from a rooted one. -/
theorem Rooted.hangs_of_stored (hrooted : Rooted memory node) (hagrees : Agrees memory stored)
    (hparent : stored.parent node = some (some up)) :
    memory.parent node = some (some up) ∧ Rooted memory up := by
  cases hrooted with
  | root hroot => cases (hagrees.parent hroot).symm.trans hparent
  | hangs hup hrooted =>
    cases some.inj ((hagrees.parent hup).symm.trans hparent)
    exact ⟨hup, hrooted⟩

/-- The candidates keep the ownership fields memory knows. -/
def OverlayFits (memory : Memory) (overlay : Overlay) : Prop :=
  ∀ id record, overlay.task id = some record → ∀ fields, memory.taskNode id = some fields →
    record.toTaskNode = fields

theorem OverlayFits.nodeIn (hfits : OverlayFits memory overlay) {id : TaskId} {fields : TaskNode}
    (hfields : memory.taskNode id = some fields) : memory.nodeIn overlay id = some fields := by
  rw [Memory.nodeIn, recordIn]
  cases htask : overlay.task id with
  | some record =>
    dsimp only
    rw [hfits id record htask fields hfields]
  | none =>
    rw [Memory.taskNode] at hfields
    cases hlive : memory.live id with
    | some record =>
      rw [hlive] at hfields
      exact hfields
    | none =>
      rw [hlive] at hfields
      exact hfields

/-- A known node ordinary traversal goes on below is entered unless `enter` rejects it. -/
theorem Agrees.enters_of_opens (hagrees : Agrees memory stored)
    (hfits : OverlayFits memory overlay) (hknown : memory.parent node ≠ none)
    (hopens : stored.opens node = true) :
    memory.enters overlay false enter node = true ∨ ∃ id, node = .task id ∧ enter id = false := by
  cases node with
  | conversation id => exact .inl rfl
  | task id =>
    cases hfields : memory.taskNode id with
    | none =>
      rw [Memory.parent, hfields] at hknown
      exact absurd rfl hknown
    | some fields =>
      obtain ⟨record, hrecord, rfl⟩ := hagrees.fields id fields hfields
      rw [Stored.opens, hrecord] at hopens
      dsimp only at hopens
      rw [enters, hfits.nodeIn hfields]
      dsimp only
      rw [hopens]
      cases henter : enter id with
      | true => exact .inl rfl
      | false => exact .inr ⟨id, rfl, henter⟩

/-- A walk down from `start` comes to every needed node with a loaded chain that ordinary
traversal reaches, unless the node lies below a task the walk does not enter. -/
theorem Listed.entered_or_rejected (hlisted : Listed memory) (hagrees : Agrees memory stored)
    (hfits : OverlayFits memory overlay) (hreaches : stored.Reaches start node)
    (hrooted : Rooted memory node) (hneeded : memory.needed node = true) :
    (∃ up, TreeWalk.Entered (memory.childrenIn overlay) (memory.enters overlay false enter) start up ∧
      node ∈ memory.childrenIn overlay up) ∨
    ∃ id, enter id = false ∧ stored.Reaches start (.task id) ∧ stored.opens (.task id) = true ∧
      stored.Reaches (.task id) node := by
  induction hreaches with
  | @child node hparent =>
    left
    obtain ⟨hup, -⟩ := hrooted.hangs_of_stored hagrees hparent
    refine ⟨start, .start, List.mem_append_left _ ?_⟩
    exact ((hlisted.all node).below start hup).mpr hneeded
  | @through up node hreaches hopens hparent ih =>
    obtain ⟨hup, hupRooted⟩ := hrooted.hangs_of_stored hagrees hparent
    have hbelow := ((hlisted.all node).below up hup).mpr hneeded
    rcases ih hupRooted (needed_of_mem_below hbelow) with ⟨above, habove, hchild⟩ |
      ⟨id, hid, hstart, hidOpens, hidReaches⟩
    · rcases hagrees.enters_of_opens hfits hupRooted.known hopens with henters | ⟨id, rfl, hid⟩
      · exact .inl ⟨up, .child habove hchild henters, List.mem_append_left _ hbelow⟩
      · exact .inr ⟨id, hid, hreaches, hopens, .child hparent⟩
    · exact .inr ⟨id, hid, hstart, hidOpens, .through hidReaches hopens hparent⟩

end Memory

end Hummin.Scheduler
