/-
The writer of a durable session: commits admitted on a line, stored in calls of
several parts and published one by one.  The asynchronous code is cut at its waits;
between two of them any other step may come.  Calls of the host other than `commit`
do not throw.
-/
import Hummin.JsMap

namespace Hummin.Writer

/-- `W` are storage writes, `K` keys and `E` thrown values. -/
structure PartSpec (W K : Type) where
  index : Nat
  writes : Option (List W)
  keys : List K
deriving DecidableEq

/-- An admitted part.  Its number, its place in the order of admission, stands for the
identity of the object. -/
structure Part (W K : Type) extends PartSpec W K where
  number : Nat
deriving DecidableEq

/-- An error that fails the session: a thrown one, or the writer's own. -/
inductive Fault (E : Type)
  | raised (error : E)
  | notAdopted
deriving DecidableEq

inductive FailureKind
  | adoption
  | listener
deriving DecidableEq

structure PublishFailure (E : Type) where
  kind : FailureKind
  error : Fault E
deriving DecidableEq

/-- How an outcome is settled: resolved, or rejected with an error or `SessionFailed`. -/
inductive Settlement (E : Type)
  | resolved
  | rejected (error : Fault E)
  | sessionFailed (error : Fault E)
deriving DecidableEq

structure CommitResult (E : Type) where
  stored : Nat
  refused : Option (Fault E)
deriving DecidableEq

inductive FailedOutcome (E : Type)
  | own (error : Fault E)
  | failed
deriving DecidableEq

/-- What stops the publication of a call, and the line index it stopped at. -/
structure Stop (E : Type) where
  error : Fault E
  lineIndex : Nat
  isExternal : Bool
deriving DecidableEq

structure Failing (W K E : Type) where
  part : Part W K
  outcome : FailedOutcome E
  published : Bool
deriving DecidableEq

/-- The variables of the publication of one call; a receipt's seq stands at the index
of its stored part. -/
structure Publication (W K E : Type) where
  seqs : List Nat
  result : Option (CommitResult E)
  rejected : Option (Fault E)
  stop : Option (Stop E)
  failing : List (Failing W K E)
  storedIndex : Nat
deriving DecidableEq

/-- Where a call waits: for the storage, before a part's publication, in it, behind it,
before the failing parts are settled, and before the next call. -/
inductive Flight (W K E : Type)
  | committing (parts : List (Part W K)) (seqs : List Nat)
  | ready (part : Part W K) (seq : Option Nat) (rest : List (Part W K))
      (loop : Publication W K E)
  | publishing (part : Part W K) (rest : List (Part W K)) (loop : Publication W K E)
  | ran (part : Part W K) (failure : Option (PublishFailure E))
      (external : Option (Fault E)) (rest : List (Part W K)) (loop : Publication W K E)
  | settling (loop : Publication W K E)
  | returning
deriving DecidableEq

/-- The writer and the failure of its session, with the log of what was admitted,
received, published, discarded, settled and opened, and of the calls that failed the
session or reported an error to it. -/
structure State (W K E : Type) where
  queue : List (Part W K)
  flight : Option (Flight W K E)
  unpublished : List (K × Nat)
  newest : Option Nat
  failure : Option (Fault E)
  admitted : List (Part W K)
  receipts : List (Nat × Nat)
  publications : List (Nat × Option Nat)
  discards : List Nat
  settlements : List (Nat × Settlement E)
  opened : List Nat
  reports : List (Fault E)
  failCalls : List (Fault E × Option Nat × List Nat)
deriving DecidableEq

variable {W K E : Type}

def State.start : State W K E where
  queue := []
  flight := none
  unpublished := []
  newest := none
  failure := none
  admitted := []
  receipts := []
  publications := []
  discards := []
  settlements := []
  opened := []
  reports := []
  failCalls := []

/-! ### Settling a part -/

def settle (part : Part W K) (settlement : Settlement E) (state : State W K E) :
    State W K E :=
  { state with settlements := state.settlements ++ [(part.number, settlement)] }

variable [DecidableEq K]

/-- Drop the keys that a part is still the newest writer of. -/
def unregister (part : Part W K) (state : State W K E) : State W K E :=
  { state with
    unpublished := part.keys.foldl (fun unpublished key =>
      if PropertyList.get key unpublished = some part.number then
        PropertyList.erase key unpublished
      else unpublished) state.unpublished }

/-- Open a part's gate. -/
def openGate (part : Part W K) (state : State W K E) : State W K E :=
  { state with
    opened := state.opened ++ [part.number]
    newest := if state.newest = some part.number then none else state.newest }

def discard (part : Part W K) (state : State W K E) : State W K E :=
  { state with discards := state.discards ++ [part.number] }

/-- Settle a part that will never be published. -/
def unpublish (settlement : Settlement E) (state : State W K E) (part : Part W K) :
    State W K E :=
  openGate part (unregister part (settle part settlement (discard part state)))

/-! ### Publishing a call -/

/-- Why a stored part has no receipt. -/
def unreceived (loop : Publication W K E) (index : Nat) : Fault E :=
  match loop.rejected with
  | some error => error
  | none =>
    match loop.result with
    | some ⟨stored, some error⟩ => if index = stored then error else .notAdopted
    | _ => .notAdopted

/-- The outcome of a part behind a stop: a call that rejected gives its stored parts
its own error. -/
def outcomeBehind (loop : Publication W K E) (stop : Stop E) (part : Part W K) :
    FailedOutcome E :=
  match loop.rejected with
  | some error => if part.writes.isSome ∧ stop.isExternal = false then .own error else .failed
  | none => .failed

/-- Stored parts are counted. -/
def Publication.counting (loop : Publication W K E) (part : Part W K) :
    Publication W K E :=
  { loop with
    storedIndex := if part.writes.isSome then loop.storedIndex + 1 else loop.storedIndex }

/-- Go on with the parts, up to one that is to be published. -/
def scan (loop : Publication W K E) : List (Part W K) → Flight W K E
  | [] => .settling loop
  | part :: rest =>
    let next := loop.counting part
    match loop.stop with
    | some stop => scan { next with
        failing := loop.failing ++ [⟨part, outcomeBehind loop stop part, false⟩] } rest
    | none =>
      if part.writes.isSome then
        match loop.seqs[loop.storedIndex]? with
        | some seq => .ready part (some seq) rest next
        | none =>
          let error := unreceived loop loop.storedIndex
          scan { next with
            failing := loop.failing ++ [⟨part, .own error, false⟩]
            stop := some ⟨error, part.index, false⟩ } rest
      else .ready part none rest next

/-- Start a part's publication, unless the session failed meanwhile. -/
def startPublication (part : Part W K) (seq : Option Nat) (rest : List (Part W K))
    (loop : Publication W K E) (state : State W K E) : State W K E :=
  match state.failure with
  | some error => { state with flight := some (.ran part none (some error) rest loop) }
  | none => { unregister part state with
      publications := state.publications ++ [(part.number, seq)]
      flight := some (.publishing part rest loop) }

/-- Behind a part's publication: settle it, or keep it for the failure. -/
def resume (part : Part W K) (failure : Option (PublishFailure E))
    (external : Option (Fault E)) (rest : List (Part W K)) (loop : Publication W K E)
    (state : State W K E) : State W K E :=
  match external with
  | some error => { state with
      flight := some (scan { loop with
        stop := some ⟨error, part.index, true⟩
        failing := loop.failing ++ [⟨part, .failed, false⟩] } rest) }
  | none =>
    match failure.filter fun failure => failure.kind = .adoption with
    | some failure => { state with
        flight := some (scan { loop with
          stop := some ⟨failure.error, part.index, false⟩
          failing := loop.failing ++ [⟨part, .own failure.error, true⟩] } rest) }
    | none =>
      match loop.rejected with
      | some error => { state with
          reports := state.reports ++ (failure.map PublishFailure.error).toList
          flight := some (scan { loop with
            failing := loop.failing ++ [⟨part, .own error, true⟩] } rest) }
      | none =>
        let settlement : Settlement E :=
          match state.failure, failure with
          | some error, none => .sessionFailed error
          | _, _ => .resolved
        { openGate part (settle part settlement state) with
          flight := some (scan { loop with
            stop := (failure.map fun failure =>
              ⟨failure.error, part.index, false⟩).or loop.stop } rest) }

/-- Fail the session; the first failure counts. -/
def fail (error : Fault E) (state : State W K E) : State W K E :=
  { state with failure := state.failure.or (some error) }

/-- Fail the session from a line index on, with the jobs that keep their own error. -/
def failAt (error : Fault E) (lineIndex : Option Nat) (own : List Nat)
    (state : State W K E) : State W K E :=
  { fail error state with failCalls := state.failCalls ++ [(error, lineIndex, own)] }

/-- `SessionFailed` with the session's failure, or with the error until there is one. -/
def failed (state : State W K E) (error : Fault E) : Settlement E :=
  .sessionFailed (state.failure.getD error)

/-- Settle a part that the failure decides; without a stop no outcome is `failed`. -/
def settleFailing (stop : Option (Stop E)) (state : State W K E)
    (failing : Failing W K E) : State W K E :=
  let settlement : Settlement E :=
    match failing.outcome, stop with
    | .own error, _ => .rejected error
    | .failed, some stop => failed state stop.error
    | .failed, none => failed state .notAdopted
  if failing.published then openGate failing.part (settle failing.part settlement state)
  else unpublish settlement state failing.part

/-- Fail the session for a call that was rejected or stopped. -/
def stopCall (loop : Publication W K E) (state : State W K E) : State W K E :=
  let own := loop.failing.filterMap fun failing =>
    match failing.outcome with
    | .own _ => some failing.part.index
    | .failed => none
  match loop.rejected, loop.stop with
  | some error, _ => failAt error own.head? own state
  | none, some stop => failAt stop.error (some stop.lineIndex) own state
  | none, none => state

/-- The parts admitted to a failed session while a call ran are never sent. -/
def dropQueue (state : State W K E) : State W K E :=
  match state.failure with
  | none => state
  | some error =>
    { state.queue.foldl (unpublish (.sessionFailed error)) state with queue := [] }

/-- Settle what a call left, and what the failure leaves of the queue. -/
def finish (loop : Publication W K E) (state : State W K E) : State W K E :=
  dropQueue { loop.failing.foldl (settleFailing loop.stop) (stopCall loop state) with
    flight := some .returning }

/-! ### Sending -/

/-- The parts of a call to a failed session. -/
def abandonCall (parts : List (Part W K)) (error : Fault E) (state : State W K E) :
    State W K E :=
  { parts.foldl (unpublish (.sessionFailed error)) state with flight := some .returning }

def storedParts (parts : List (Part W K)) : List (Part W K) :=
  parts.filter fun part => part.writes.isSome

/-- Send parts in one call, or publish them when none is to be stored. -/
def send (parts : List (Part W K)) (state : State W K E) : State W K E :=
  match state.failure with
  | some error => abandonCall parts error state
  | none =>
    if (storedParts parts).isEmpty then
      { state with flight := some (scan ⟨[], none, none, none, [], 0⟩ parts) }
    else { state with flight := some (.committing parts []) }

/-- The variables of the publication of a call that returned or threw. -/
def Publication.ofResult (seqs : List Nat) :
    Except (Fault E) (CommitResult E) → Publication W K E
  | .ok result => ⟨seqs, some result, none, none, [], 0⟩
  | .error error => ⟨seqs, none, some error, none, [], 0⟩

/-- The call to the storage ended. -/
def sent (parts : List (Part W K)) (seqs : List Nat)
    (result : Except (Fault E) (CommitResult E)) (state : State W K E) : State W K E :=
  match state.failure with
  | some error => abandonCall parts error state
  | none => { state with flight := some (scan (.ofResult seqs result) parts) }

/-- Send what was admitted, unless a call is in flight. -/
def pump (state : State W K E) : State W K E :=
  if state.flight.isSome ∨ state.queue.isEmpty then state
  else send state.queue { state with
    queue := []
    flight := some (.committing state.queue []) }

def admitPart (spec : PartSpec W K) (state : State W K E) : State W K E :=
  let part : Part W K := { spec with number := state.admitted.length }
  pump { state with
    unpublished := spec.keys.foldl (fun unpublished key =>
      JsMap.set key part.number unpublished) state.unpublished
    newest := some part.number
    queue := state.queue ++ [part]
    admitted := state.admitted ++ [part] }

/-! ### Steps -/

/-- A part is admitted, the session fails elsewhere, or the call in flight goes on:
a receipt for its next stored part, the end of the storage call, a part's publication
and what follows it. -/
inductive Event (W K E : Type)
  | admitPart (spec : PartSpec W K)
  | failElsewhere (error : Fault E)
  | receive (seq : Nat)
  | committed (result : Except (Fault E) (CommitResult E))
  | start
  | published (failure : Option (PublishFailure E))
  | resume
  | finish
  | next

/-- One step, when the event can happen. -/
def step (state : State W K E) : Event W K E → Option (State W K E)
  | .admitPart spec => some (admitPart spec state)
  | .failElsewhere error => some (fail error state)
  | .receive seq =>
    match state.flight with
    | some (.committing parts seqs) =>
      (storedParts parts)[seqs.length]?.map fun part => { state with
        flight := some (.committing parts (seqs ++ [seq]))
        receipts := state.receipts ++ [(part.number, seq)] }
    | _ => none
  | .committed result =>
    match state.flight with
    | some (.committing parts seqs) => some (sent parts seqs result state)
    | _ => none
  | .start =>
    match state.flight with
    | some (.ready part seq rest loop) => some (startPublication part seq rest loop state)
    | _ => none
  | .published failure =>
    match state.flight with
    | some (.publishing part rest loop) =>
      some { state with flight := some (.ran part failure none rest loop) }
    | _ => none
  | .resume =>
    match state.flight with
    | some (.ran part failure external rest loop) =>
      some (resume part failure external rest loop state)
    | _ => none
  | .finish =>
    match state.flight with
    | some (.settling loop) => some (finish loop state)
    | _ => none
  | .next =>
    match state.flight with
    | some .returning => some (pump { state with flight := none })
    | _ => none

end Hummin.Writer
