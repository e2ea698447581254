/-
The scheduler's memory of the ownership tree.  A task hangs from its owner task, or
from its conversation; a conversation hangs from its owner task, if any.  The index
lists the tree downward around live work; ended tasks and conversations are forgotten
once nothing is listed below them and loaded again on demand.
-/
import Mathlib.Logic.Function.Basic
import Mathlib.Data.List.Basic

namespace Hummin.Scheduler

abbrev TaskId := Nat

abbrev ConversationId := Nat

/-- A node of the ownership tree. -/
inductive Node
  | task (id : TaskId)
  | conversation (id : ConversationId)
deriving DecidableEq, Repr

/-- The number the node's record was minted with. -/
def Node.id : Node → Nat
  | .task id => id
  | .conversation id => id

/-- The ownership fields of a task. -/
structure TaskNode where
  conversationId : ConversationId
  owner : Option TaskId
  background : Bool
deriving DecidableEq, Repr

/-- The node a task hangs from: its owner task, or its conversation. -/
def parentNode (node : TaskNode) : Node :=
  match node.owner with
  | some owner => .task owner
  | none => .conversation node.conversationId

inductive JoinPolicy
  | failFast
  | allSettled
deriving DecidableEq, Repr

inductive TaskState
  | pending
  | running
  | waiting (on : List TaskId) (policy : JoinPolicy)
  | sleeping
  | completing
  | terminal
deriving DecidableEq, Repr

structure TaskRecord extends TaskNode where
  id : TaskId
  state : TaskState
  abortRequested : Bool
deriving DecidableEq, Repr

/-- A record that is not terminal. -/
def TaskRecord.isLive (record : TaskRecord) : Bool :=
  record.state != .terminal

/-- The committed task and conversation records.  Ids count up over both tables. -/
structure Stored where
  tasks : TaskId → Option TaskRecord
  conversations : ConversationId → Option (Option TaskId)
  nextId : Nat

/-- A write of a commit; ownership fields never change. -/
inductive Write
  | conversation (id : ConversationId) (owner : Option TaskId)
  | task (record : TaskRecord)
deriving DecidableEq, Repr

abbrev Commit := List Write

def Write.edge? : Write → Option (ConversationId × Option TaskId)
  | .conversation id owner => some (id, owner)
  | .task _ => none

def Write.record? : Write → Option TaskRecord
  | .conversation _ _ => none
  | .task record => some record

def Commit.edges (commit : Commit) : List (ConversationId × Option TaskId) :=
  commit.filterMap Write.edge?

def Commit.records (commit : Commit) : List TaskRecord :=
  commit.filterMap Write.record?

/-- The commit writes the node's record. -/
def Commit.writes (commit : Commit) : Node → Bool
  | .task id => commit.records.any fun record => record.id = id
  | .conversation id => commit.edges.any fun edge => edge.1 = id

namespace Stored

def has (stored : Stored) : Node → Bool
  | .task id => (stored.tasks id).isSome
  | .conversation id => (stored.conversations id).isSome

def putTask (stored : Stored) (record : TaskRecord) : Stored :=
  { stored with tasks := Function.update stored.tasks record.id (some record) }

/-- A created record has a new id and hangs from one that exists; a replaced one is live
and keeps its ownership fields. -/
def write (stored : Stored) : Write → Option Stored
  | .conversation id owner =>
    if stored.nextId ≤ id ∧ owner.all (fun owner => (stored.tasks owner).isSome) then
      some { stored with
        conversations := Function.update stored.conversations id (some owner),
        nextId := id + 1 }
    else none
  | .task record =>
    match stored.tasks record.id with
    | some previous =>
      if previous.isLive ∧ previous.toTaskNode = record.toTaskNode then
        some (stored.putTask record)
      else none
    | none =>
      if stored.nextId ≤ record.id ∧ record.isLive ∧
          stored.has (parentNode record.toTaskNode) then
        some { stored.putTask record with nextId := record.id + 1 }
      else none

def apply (stored : Stored) (commit : Commit) : Option Stored :=
  commit.foldlM write stored

end Stored

/-- A set kept in the order in which its members came. -/
def add {α : Type} [DecidableEq α] (set : List α) (value : α) : List α :=
  if value ∈ set then set else set ++ [value]

def delete {α : Type} [DecidableEq α] (set : List α) (value : α) : List α :=
  set.filter (· ≠ value)

structure Memory where
  live : TaskId → Option TaskRecord
  settled : TaskId → Option TaskNode
  /-- The owner of each known conversation. -/
  edges : ConversationId → Option (Option TaskId)
  /-- The child nodes that are live tasks or have nodes listed below them. -/
  below : Node → List Node
  roots : List ConversationId
  /-- Known tasks whose chain may not be loaded. -/
  unloaded : List TaskId
  dropQueue : List Node
  /-- A node stands here once for each pin. -/
  pins : List Node

namespace Memory

def isLive (memory : Memory) : Node → Bool
  | .task id => (memory.live id).isSome
  | .conversation _ => false

/-- The ownership fields of a known task. -/
def taskNode (memory : Memory) (id : TaskId) : Option TaskNode :=
  match memory.live id with
  | some record => some record.toTaskNode
  | none => memory.settled id

/-- What a known node hangs from; `some none` for an ownerless conversation. -/
def parent (memory : Memory) : Node → Option (Option Node)
  | .task id => (memory.taskNode id).map fun node => some (parentNode node)
  | .conversation id => (memory.edges id).map fun owner => owner.map Node.task

def hasBelow (memory : Memory) (node : Node) : Bool :=
  !(memory.below node).isEmpty

def needed (memory : Memory) (node : Node) : Bool :=
  memory.isLive node || memory.hasBelow node

def setBelow (memory : Memory) (node : Node) (children : List Node) : Memory :=
  { memory with below := Function.update memory.below node children }

/-- Queue an ended task or a conversation for the sweep when nothing is listed below it. -/
def dropIfUnneeded (memory : Memory) (node : Node) : Memory :=
  if memory.needed node then memory
  else { memory with dropQueue := add memory.dropQueue node }

/-- List the node under its parent while it is needed, and unlist it otherwise; then its
parent, as far up as that changes.  Parents have smaller ids, which bounds the climb. -/
def relistFrom : Nat → Memory → Node → Memory
  | 0, memory, _ => memory
  | bound + 1, memory, node =>
    match memory.parent node with
    | none => memory
    | some none =>
      { memory with roots :=
          if memory.needed node then add memory.roots node.id
          else delete memory.roots node.id }
    | some (some parent) =>
      let children := memory.below parent
      if decide (node ∈ children) = memory.needed node then memory
      else if memory.needed node then
        let listed := memory.setBelow parent (add children node)
        if memory.hasBelow parent then listed else relistFrom bound listed parent
      else
        let unlisted := memory.setBelow parent (delete children node)
        if unlisted.hasBelow parent then unlisted
        else relistFrom bound (unlisted.dropIfUnneeded parent) parent

def relist (memory : Memory) (node : Node) : Memory :=
  memory.relistFrom (node.id + 1) node

def putEdge (memory : Memory) (id : ConversationId) (owner : Option TaskId) : Memory :=
  { memory with edges := Function.update memory.edges id (some owner) }

def setEdge (memory : Memory) (id : ConversationId) (owner : Option TaskId) : Memory :=
  ((memory.putEdge id owner).relist (.conversation id)).dropIfUnneeded (.conversation id)

def putSettled (memory : Memory) (id : TaskId) (node : TaskNode) : Memory :=
  { memory with
    settled := Function.update memory.settled id (some node),
    unloaded := add memory.unloaded id }

/-- Know a terminal task a chain load read; its own chain is not loaded yet. -/
def settle (memory : Memory) (id : TaskId) (node : TaskNode) : Memory :=
  ((memory.putSettled id node).relist (.task id)).dropIfUnneeded (.task id)

/-- Drop a queued node that is still unneeded; a pinned one is queued again once its pins go. -/
def drop (memory : Memory) (node : Node) : Memory :=
  if memory.hasBelow node || decide (node ∈ memory.pins) then memory
  else match node with
    | .conversation id => { memory with
        edges := Function.update memory.edges id none,
        roots := delete memory.roots id }
    | .task id =>
      if (memory.live id).isSome then memory
      else { memory with
        settled := Function.update memory.settled id none,
        unloaded := delete memory.unloaded id }

def sweep (memory : Memory) : Memory :=
  { memory.dropQueue.foldl drop memory with dropQueue := [] }

def pin (memory : Memory) (node : Node) : Memory :=
  { memory with pins := memory.pins ++ [node] }

/-- The end of a job, for one of its pins. -/
def unpin (memory : Memory) (node : Node) : Memory :=
  let released := { memory with pins := memory.pins.erase node }
  if node ∈ released.pins then released else released.dropIfUnneeded node

/-- Whether the chain above a node is loaded, without walking. -/
def known (memory : Memory) : Node → Bool
  | .task id => (memory.taskNode id).isSome && decide (id ∉ memory.unloaded)
  | .conversation id =>
    match memory.edges id with
    | none => false
    | some none => true
    | some (some owner) =>
      (memory.taskNode owner).isSome && decide (owner ∉ memory.unloaded)

def setLive (memory : Memory) (record : TaskRecord) : Memory :=
  { memory with live := Function.update memory.live record.id (some record) }

def setEnded (memory : Memory) (record : TaskRecord) : Memory :=
  { memory with
    live := Function.update memory.live record.id none,
    settled := Function.update memory.settled record.id (some record.toTaskNode) }

/-- The chain of a new task is loaded when its parent's is. -/
def markUnloaded (memory : Memory) (record : TaskRecord) : Memory :=
  { memory with
    unloaded := if memory.known (parentNode record.toTaskNode) then memory.unloaded
      else add memory.unloaded record.id }

/-- Bring the index in line with a task's committed record. -/
def track (memory : Memory) (record : TaskRecord) : Memory :=
  if record.state = .terminal then
    ((memory.setEnded record).relist (.task record.id)).dropIfUnneeded (.task record.id)
  else match memory.live record.id with
    | some _ => memory.setLive record
    | none => ((memory.setLive record).markUnloaded record).relist (.task record.id)

/-- An edge a publication brings, unless a chain load read it already. -/
def publishEdge (memory : Memory) (edge : ConversationId × Option TaskId) : Memory :=
  if (memory.edges edge.1).isSome then memory else memory.setEdge edge.1 edge.2

/-- What a publication does to the index before its sweep: edges first, so the tasks a
commit creates in a new conversation hang from it. -/
def publish (memory : Memory) (commit : Commit) : Memory :=
  commit.records.foldl track (commit.edges.foldl publishEdge memory)

def observe (memory : Memory) (commit : Commit) : Memory :=
  (memory.publish commit).sweep

end Memory

/-! ### Chain loads -/

/-- The candidate edges and records a commit staged. -/
abbrev Overlay := Commit

def Overlay.task (overlay : Overlay) (id : TaskId) : Option TaskRecord :=
  Commit.records overlay |>.find? fun record => record.id = id

def Overlay.edge (overlay : Overlay) (id : ConversationId) : Option (Option TaskId) :=
  (Commit.edges overlay |>.find? fun edge => edge.1 = id).map Prod.snd

/-- Owner task of a conversation, under a commit's candidates. -/
def Memory.edge (memory : Memory) (overlay : Overlay) (id : ConversationId) :
    Option (Option TaskId) :=
  match overlay.edge id with
  | some owner => some owner
  | none => memory.edges id

/-- A chain load underway: the tasks it passed, and the node it has come to. -/
structure Load where
  overlay : Overlay
  passed : List TaskId
  here : Node

/-- What one node makes of a chain load, with the node it pinned. -/
inductive Climb
  | on (memory : Memory) (pinned : Option Node) (load : Load)
  | arrived (memory : Memory) (pinned : Option Node)
  /-- The task is not stored. -/
  | missing

/-- The end of a load: the tasks it passed have a loaded chain. -/
def Memory.loaded (memory : Memory) (passed : List TaskId) : Memory :=
  { memory with unloaded := memory.unloaded.filter (· ∉ passed) }

/-- One node of a chain load. -/
def Memory.climb (memory : Memory) (stored : Stored) (load : Load) : Climb :=
  match load.here with
  | .task id =>
    match memory.taskNode id with
    | some node =>
      if id ∈ memory.unloaded then
        .on memory none { load with passed := load.passed ++ [id], here := parentNode node }
      else .arrived (memory.loaded load.passed) none
    | none =>
      -- Created in this commit: the load from its own record covers what is above it.
      if (load.overlay.task id).isSome then .arrived (memory.loaded load.passed) none
      else match stored.tasks id with
        | none => .missing
        | some record =>
          let onward := { load with
            passed := load.passed ++ [id], here := parentNode record.toTaskNode }
          if record.state = .terminal then
            .on ((memory.settle id record.toTaskNode).pin (.task id)) (some (.task id)) onward
          else .on memory none onward
  | .conversation id =>
    match memory.edge load.overlay id with
    | some none => .arrived (memory.loaded load.passed) none
    | some (some owner) => .on memory none { load with here := .task owner }
    | none =>
      -- A conversation without a record counts as ownerless.
      let owner := (stored.conversations id).join
      let installed := (memory.setEdge id owner).pin (.conversation id)
      match owner with
      | none => .arrived (installed.loaded load.passed) (some (.conversation id))
      | some owner => .on installed (some (.conversation id)) { load with here := .task owner }

end Hummin.Scheduler
