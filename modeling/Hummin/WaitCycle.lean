/-
The search for a wait cycle.  It walks the wait-for graph from the tasks a wait names, each
task visited once and each subtree of owned work walked once, and returns the path back to
the waiting task.
-/
import Hummin.Acyclic
import Hummin.CandidateWork

namespace Hummin.Scheduler

/-- The search: how each task was reached, in the order reached, the tasks whose owned work
was walked, and the stack of tasks to visit. -/
structure Search where
  origins : List (TaskId × Option TaskId)
  walked : List TaskId
  pending : List TaskId

namespace Search

def reached (search : Search) (id : TaskId) : Bool :=
  search.origins.any fun entry => entry.1 = id

def reach (search : Search) (id : TaskId) (via : Option TaskId) : Search :=
  if search.reached id then search
  else { search with
    origins := search.origins ++ [(id, via)]
    pending := id :: search.pending }

def reachAll (search : Search) (ids : List TaskId) (via : Option TaskId) : Search :=
  ids.foldl (fun search id => search.reach id via) search

/-- The steps back from a task, put in front one by one. -/
def pathFrom (entries : List (TaskId × Option TaskId)) : Nat → TaskId → List TaskId → List TaskId
  | 0, _, steps => steps
  | bound + 1, id, steps =>
    match (entries.find? fun entry => entry.1 = id).bind Prod.snd with
    | some via => pathFrom entries bound via (id :: steps)
    | none => id :: steps

def path (search : Search) (id : TaskId) : List TaskId :=
  pathFrom search.origins search.origins.length id []

/-- Visit the owned work of a task.  Below a walked task the walk does not go again: its own
walk covered what lies below. -/
def walkOwned (search : Search) (memory : Memory) (depth : Nat) (overlay : Overlay) (id : TaskId) :
    Search :=
  let walked := search.walked ++ [id]
  let found := memory.ownedLive depth overlay walked id
  { search.reachAll found (some id) with walked := walked ++ found }

/-- Visit what a waiting task waits on; an abort-marked task waits only for its owned work. -/
def visitAwaited (search : Search) (id : TaskId) (record : TaskRecord) : Search :=
  match record.state with
  | .waiting on _ => if record.abortRequested then search else search.reachAll on (some id)
  | _ => search

end Search

/-- The search from the tasks on the stack.  No task comes on it twice, which bounds the
search. -/
def Memory.waitCycleFrom (memory : Memory) (depth : Nat) (overlay : Overlay) (task : TaskId) :
    Nat → Search → Option (List TaskId)
  | 0, _ => none
  | bound + 1, search =>
    match search.pending with
    | [] => none
    | id :: pending =>
      let popped := { search with pending := pending }
      if id = task then some (popped.path id)
      else match memory.recordIn overlay id with
        | none => waitCycleFrom memory depth overlay task bound popped
        | some record =>
          if record.state = .terminal then
            waitCycleFrom memory depth overlay task bound popped
          else
            let awaited := popped.visitAwaited id record
            waitCycleFrom memory depth overlay task bound
              (if id ∈ awaited.walked then awaited
              else awaited.walkOwned memory depth overlay id)

/-- The path from a member of `on` back to `task` in the wait-for graph, if the wait would
close a cycle. -/
def Memory.waitCycle (memory : Memory) (depth : Nat) (overlay : Overlay) (task : TaskId)
    (on : List TaskId) : Option (List TaskId) :=
  memory.waitCycleFrom depth overlay task (depth + on.length + 1)
    (Search.reachAll ⟨[], [], []⟩ on none)

end Hummin.Scheduler
