/-
Derives over sources: values computed when read, marked dirty by changes, and their frames
in a batch.  Numbers stand for sources and derives; a derive's sources have smaller ones.
-/
import Mathlib.Logic.Function.Basic
import Hummin.Machine

namespace Hummin.Derives

variable {V W E O : Type}

/-- Ops between values, and what they do to the value a follower has. -/
structure Deltas (V W O : Type) where
  diff : V → V → List O
  /-- `["r", value]`. -/
  replace : V → O
  apply : W → List O → Option W
  /-- What a follower has of a value, and when it is the same. -/
  hold : V → W
  Same : W → V → Prop
  same_hold : ∀ value, Same (hold value) value
  apply_nil : ∀ held, apply held [] = some held
  apply_diff : ∀ held before after, Same held before →
    ∃ result, apply held (diff before after) = some result ∧ Same result after
  apply_replace : ∀ held after, ∃ result, apply held [replace after] = some result ∧ Same result after

/-- A source changes by itself; a derive computes its value, or throws. -/
inductive Node (V E : Type)
  | source
  | derive (sources : List Nat) (compute : List V → Except E V)

/-- A finite graph without a cycle; `dependents` in the order in which they attached. -/
structure Graph (V E : Type) where
  nodes : List (Node V E)
  dependents : Nat → List Nat
  acyclic : ∀ (node : Nat) (sources : List Nat) (compute : List V → Except E V),
    nodes[node]? = some (.derive sources compute) → ∀ source ∈ sources, source < node
  dependents_iff : ∀ source node : Nat, node ∈ dependents source ↔
    ∃ (sources : List Nat) (compute : List V → Except E V),
      nodes[node]? = some (.derive sources compute) ∧ source ∈ sources

/-- Where a derive stands. -/
inductive DeriveState (V E : Type)
  | dirty
  | clean (value : V)
  | failed (error : E)

/-- The value a derive's watches have, kept from its marking to its frame. -/
inductive Framed (V : Type)
  | absent
  | noValue
  | value (value : V)

/-- `WatchCall`. -/
inductive Call (V E O : Type)
  | value (value : V) (ops : List O)
  | failed (error : E)

/-- A watch or subscriber of a derive: what it started at, and the calls it got. -/
structure Follower (V E O : Type) where
  id : Nat
  node : Nat
  start : V
  calls : List (Call V E O)

/-- `changed`: what the batch has yet to deliver; `computes` counts those of the batch. -/
structure State (V E O : Type) where
  values : Nat → V
  derives : Nat → DeriveState V E
  framed : Nat → Framed V
  good : Nat → Option V
  followers : List (Follower V E O)
  nextFollower : Nat
  running : Bool
  changed : List Nat
  computes : Nat → Nat

/-- The sources have `values`, and nothing was read yet. -/
def start (values : Nat → V) : State V E O where
  values := values
  derives := fun _ => .dirty
  framed := fun _ => .absent
  good := fun _ => none
  followers := []
  nextFollower := 0
  running := false
  changed := []
  computes := fun _ => 0

namespace State

variable (graph : Graph V E) (deltas : Deltas V W O)

/-- `watched`. -/
def watched (state : State V E O) (node : Nat) : Bool :=
  state.followers.any fun follower => follower.node = node

/-- The sources' values in order, up to the first that throws. -/
def readAll (read : State V E O → Nat → State V E O × Except E V) :
    State V E O → List Nat → State V E O × Except E (List V)
  | state, [] => (state, .ok [])
  | state, source :: rest =>
    match read state source with
    | (state, .error error) => (state, .error error)
    | (state, .ok value) =>
      match readAll read state rest with
      | (state, .error error) => (state, .error error)
      | (state, .ok values) => (state, .ok (value :: values))

/-- The end of `#recompute`. -/
def computed (state : State V E O) (node : Nat) : Except E V → State V E O × Except E V
  | .ok value => ({ state with
      derives := Function.update state.derives node (.clean value)
      good := Function.update state.good node (some value) }, .ok value)
  | .error error => ({ state with
      derives := Function.update state.derives node (.failed error) }, .error error)

/-- `get value`, with `#recompute`; the fuel is one more than the node's number. -/
def readFrom : Nat → State V E O → Nat → State V E O × Except E V
  | 0, state, node => (state, .ok (state.values node))
  | fuel + 1, state, node =>
    match graph.nodes[node]? with
    | some (.derive sources compute) =>
      match state.derives node with
      | .clean value => (state, .ok value)
      | .failed error => (state, .error error)
      | .dirty =>
        let counted := { state with
          computes := Function.update state.computes node (state.computes node + 1) }
        match readAll (readFrom fuel) counted sources with
        | (read, .error error) => read.computed node (.error error)
        | (read, .ok values) => read.computed node (compute values)
    | _ => (state, .ok (state.values node))

def read (state : State V E O) (node : Nat) : State V E O × Except E V :=
  readFrom graph (node + 1) state node

/-- What `invalidate` keeps for the frame. -/
def framedOf : DeriveState V E → Framed V
  | .clean value => .value value
  | _ => .noValue

/-- The marking of one derive, listed for its frame when it is watched. -/
def mark (state : State V E O) (node : Nat) : State V E O :=
  if state.watched node then
    { state with
      framed := Function.update state.framed node (framedOf (state.derives node))
      derives := Function.update state.derives node .dirty
      changed := state.changed ++ [node] }
  else { state with derives := Function.update state.derives node .dirty }

/-- `invalidate`, which stops at what is dirty; the fuel bounds the length of a path. -/
def invalidate : Nat → State V E O → Nat → State V E O
  | 0, state, _ => state
  | fuel + 1, state, node =>
    match state.derives node with
    | .dirty => state
    | _ => (graph.dependents node).foldl (invalidate fuel) (state.mark node)

/-- A source changes, inside the batch. -/
def set (state : State V E O) (source : Nat) (value : V) : State V E O :=
  (graph.dependents source).foldl (invalidate graph graph.nodes.length)
    { state with values := Function.update state.values source value }

/-- `forward`: to every watch and subscriber of the derive. -/
def forward (state : State V E O) (node : Nat) (call : Call V E O) : State V E O :=
  { state with followers := state.followers.map fun follower =>
      if follower.node = node then { follower with calls := follower.calls ++ [call] } else follower }

/-- The ops of a frame; the diff from no value at all is a replacement as well. -/
def opsFrom (before : Framed V) (after : V) : List O :=
  match before with
  | .value before => deltas.diff before after
  | _ => [deltas.replace after]

/-- `deliver`. -/
def deliver (state : State V E O) (node : Nat) : State V E O :=
  let before := state.framed node
  match read graph { state with framed := Function.update state.framed node .absent } node with
  | (read, .error error) =>
    match before with
    | .noValue => read
    | _ => read.forward node (.failed error)
  | (read, .ok after) =>
    if (opsFrom deltas before after).isEmpty then read
    else read.forward node (.value after (opsFrom deltas before after))

/-- `openWatch`, or a subscriber that took the value: at the value, or at the last good one
with the failure as its first call. -/
def follow (state : State V E O) (node : Nat) : Option (State V E O) :=
  let add (state : State V E O) (value : V) (calls : List (Call V E O)) : State V E O :=
    { state with
      followers := state.followers ++ [⟨state.nextFollower, node, value, calls⟩]
      nextFollower := state.nextFollower + 1 }
  match read graph state node with
  | (read, .ok value) => some (add read value [])
  | (read, .error error) =>
    match read.good node with
    | some last => some (add read last [.failed error])
    | none => none

end State

inductive Input (V : Type)
  /-- A commit begins, or the one that `within` opens outside a batch. -/
  | begin
  /-- A change: of the commit, or one that joined through `within` while frames are delivered. -/
  | set (source : Nat) (value : V)
  | read (node : Nat)
  /-- The next frame. -/
  | deliver
  /-- Every frame was delivered. -/
  | finish
  | follow (node : Nat)
  | stop (id : Nat)

def step (graph : Graph V E) (deltas : Deltas V W O) (state : State V E O) :
    Input V → Option (State V E O)
  | .begin => if state.running then none else some { state with running := true, computes := fun _ => 0 }
  | .set source value =>
    match graph.nodes[source]? with
    | some .source => if state.running then some (state.set graph source value) else none
    | _ => none
  | .read node => some (state.read graph node).1
  | .deliver =>
    match state.changed with
    | [] => none
    | node :: rest =>
      if state.running then some ({ state with changed := rest }.deliver graph deltas node) else none
  | .finish => if state.running ∧ state.changed = [] then some { state with running := false } else none
  | .follow node =>
    match graph.nodes[node]? with
    | some (.derive ..) => if state.running then none else state.follow graph node
    | _ => none
  | .stop id => some { state with followers := state.followers.filter fun follower => follower.id ≠ id }

end Hummin.Derives
