/-
The Session line and the outcomes of its jobs.  A job runs on the line after those before it;
its outcome settles once its commit, if it admitted one, is published, and is delivered
through chains of promise reactions, each queued as a microtask when what it waits for
settles.
-/
import Mathlib.Data.Finset.Range
import Mathlib.Data.Finset.Filter
import Hummin.Machine
import Hummin.Microtasks

namespace Hummin.SessionLine

/-- What a promise rejects with. -/
inductive Failure (ε : Type)
  | own (error : ε)
  | sessionFailed
deriving DecidableEq, Repr

/-- Commits and reads are delivered behind the fence; a scheduler commit may be exempt.  A job
of the Session's own upkeep has no outcome. -/
inductive Kind
  | ordinary
  | exempt
  | upkeep
deriving DecidableEq, Repr

/-- A job's line part; `ran` once its promise settled. -/
inductive Line (ε α : Type)
  | queued
  | onLine
  | left (result : Except (Failure ε) α)
  | ran (result : Except (Failure ε) α)

/-- Where a chain `fence.then(() => outcome).then(handler)` of reactions stands, with the tick
a queued reaction runs in. -/
inductive Stage
  | idle
  /-- The reaction that decides how an exempt job is delivered is queued. -/
  | choosing (tick : Nat)
  /-- Waits for the fence, or a part for its publication. -/
  | blocked
  /-- Its first callback is queued. -/
  | called (tick : Nat)
  /-- The callback returned a promise; the job that takes it up is queued. -/
  | adopting (tick : Nat)
  /-- Waits for the promise it took up. -/
  | following
  /-- Waits for the outcome directly. -/
  | listening
  /-- The promise it took up settled; passing that on is queued. -/
  | settling (tick : Nat)
  /-- Its last handler is queued. -/
  | finishing (tick : Nat)
  | finished (tick : Nat)
deriving DecidableEq, Repr

/-- The tick a queued reaction runs in. -/
def Stage.tick? : Stage → Option Nat
  | .choosing tick => some tick
  | .called tick => some tick
  | .adopting tick => some tick
  | .settling tick => some tick
  | .finishing tick => some tick
  | _ => none

def Stage.isFinished : Stage → Bool
  | .finished _ => true
  | _ => false

/-- Whether the chain waits for the outcome. -/
def Stage.waits : Stage → Bool
  | .following => true
  | .listening => true
  | _ => false

/-- What the settled outcome makes of a chain that waits for it. -/
def Stage.onSettled (now : Nat) : Stage → Stage
  | .following => .settling (now + 1)
  | .listening => .finishing (now + 1)
  | stage => stage

/-- The chains of a job: its outcome, the publication of its part, the fence after it, and its
delivery. -/
inductive Chain
  | outcome
  | publication
  | fence
  | delivery
deriving DecidableEq, Repr

structure Job (ε α κ : Type) where
  kind : Kind
  /-- The job whose fence this one's outcome comes after. -/
  before : Option Nat
  line : Line ε α
  hit : Bool
  /-- The keys with an unpublished writer that the job touched; `none` for all keys. -/
  met : List (Option κ)
  /-- The job admitted a commit. -/
  admitted : Bool
  /-- How the part of its commit settled. -/
  part : Option (Except (Failure ε) Unit)
  ends : List Nat
  outcome : Stage
  publication : Stage
  fence : Stage
  delivery : Stage
  /-- The job is delivered behind the fence. -/
  fenced : Bool
  value : Option (Except (Failure ε) α)

/-- What a reaction of a job does: the job after it, the chains it queues, and the end
callbacks it runs. -/
structure Effect (ε α κ : Type) where
  job : Job ε α κ
  queued : List Chain
  ended : List Nat

namespace Job

variable {ε α κ : Type}

def stage (job : Job ε α κ) : Chain → Stage
  | .outcome => job.outcome
  | .publication => job.publication
  | .fence => job.fence
  | .delivery => job.delivery

/-- The outcome settles: the chains that wait for it go on, the fence first. -/
def settleOutcome (job : Job ε α κ) (now : Nat) (value : Except (Failure ε) α) (ended : List Nat) :
    Effect ε α κ where
  job := { job with
    outcome := .finished now
    value := some value
    fence := job.fence.onSettled now
    delivery := job.delivery.onSettled now }
  queued := (if job.fence.waits then [.fence] else []) ++
    if job.delivery.waits then [.delivery] else []
  ended := ended

/-- The outcome of a job that admitted a commit, once the part settled. -/
def publishedValue (job : Job ε α κ) (value : α) : Except (Failure ε) α :=
  match job.part with
  | some (.error failure) => .error failure
  | _ => .ok value

def runOutcome (job : Job ε α κ) (now : Nat) : Effect ε α κ :=
  match job.outcome, job.line with
  | .called _, .ran (.error failure) =>
    { job with ends := [] }.settleOutcome now (.error failure) job.ends
  | .called _, .ran (.ok value) =>
    if job.admitted then
      { job := { job with
          publication := if job.part.isSome then .called (now + 1) else .blocked
          outcome := .adopting (now + 1) }
        queued := (if job.part.isSome then [.publication] else []) ++ [.outcome]
        ended := [] }
    else { job with ends := [] }.settleOutcome now (.ok value) job.ends
  | .adopting _, _ =>
    if job.publication.isFinished then
      ⟨{ job with outcome := .settling (now + 1) }, [.outcome], []⟩
    else ⟨{ job with outcome := .following }, [], []⟩
  | .settling _, .ran (.ok value) => job.settleOutcome now (job.publishedValue value) []
  | _, _ => ⟨job, [], []⟩

/-- The part's publication settled: what waited for the job's end runs. -/
def runPublication (job : Job ε α κ) (now : Nat) : Effect ε α κ where
  job := { job with
    publication := .finished now
    ends := []
    outcome := if job.outcome = .following then .settling (now + 1) else job.outcome }
  queued := if job.outcome = .following then [.outcome] else []
  ended := job.ends

/-- The next stage of a chain behind the fence, and whether it is queued. -/
def advance (now : Nat) (settled : Bool) : Stage → Stage × Bool
  | .called _ => (.adopting (now + 1), true)
  | .adopting _ => if settled then (.settling (now + 1), true) else (.following, false)
  | .settling _ => (.finishing (now + 1), true)
  | .finishing _ => (.finished now, false)
  | stage => (stage, false)

def runFence (job : Job ε α κ) (now : Nat) : Effect ε α κ :=
  let (stage, queued) := advance now job.outcome.isFinished job.fence
  ⟨{ job with fence := stage }, if queued then [.fence] else [], []⟩

/-- A job with a commit, or one that waited at a gate, is delivered behind the fence. -/
def isFenced (job : Job ε α κ) : Bool :=
  job.hit || match job.line with
    | .ran (.ok _) => job.admitted
    | _ => false

def runDelivery (job : Job ε α κ) (now : Nat) (opened : Bool) : Effect ε α κ :=
  match job.delivery with
  | .choosing _ =>
    if job.isFenced then
      if opened then ⟨{ job with fenced := true, delivery := .called (now + 1) }, [.delivery], []⟩
      else ⟨{ job with fenced := true, delivery := .blocked }, [], []⟩
    else if job.outcome.isFinished then
      ⟨{ job with fenced := false, delivery := .finishing (now + 1) }, [.delivery], []⟩
    else ⟨{ job with fenced := false, delivery := .listening }, [], []⟩
  | stage =>
    let (stage, queued) := advance now job.outcome.isFinished stage
    ⟨{ job with delivery := stage }, if queued then [.delivery] else [], []⟩

/-- A reaction of a chain; `opened` when the fence before the job settled. -/
def react (job : Job ε α κ) (now : Nat) (opened : Bool) : Chain → Effect ε α κ
  | .outcome => job.runOutcome now
  | .publication => job.runPublication now
  | .fence => job.runFence now
  | .delivery => job.runDelivery now opened

/-- The fence before the job settled: the chains that wait for it go on. -/
def open_ (job : Job ε α κ) (now : Nat) : Job ε α κ :=
  { job with
    fence := if job.fence = .blocked then .called (now + 1) else job.fence
    delivery := if job.delivery = .blocked then .called (now + 1) else job.delivery }

def opens (job : Job ε α κ) : List Chain :=
  (if job.fence = .blocked then [Chain.fence] else []) ++
    if job.delivery = .blocked then [Chain.delivery] else []

end Job

/-- A delivered outcome. -/
structure Delivery (ε α : Type) where
  index : Nat
  fenced : Bool
  outcome : Except (Failure ε) α

structure State (ε α κ : Type) where
  jobs : Nat → Job ε α κ
  nextIndex : Nat
  /-- The job on the line. -/
  current : Option Nat
  /-- The last job with an outcome: the fence is behind it. -/
  fence : Option Nat
  tasks : Microtasks (Nat × Chain)
  outstanding : Nat
  lastDelivered : Int
  /-- The line index whose outcome the failure is, and the later jobs that keep their own. -/
  failure : Option (Int × List Nat)
  unpublished : List (Nat × List κ)
  nextEnd : Nat
  /-- The end callbacks that ran. -/
  endsRun : List Nat
  delivered : List (Delivery ε α)

/-- What may happen next: a job is enqueued, the job on the line does something or leaves it,
its promise or its part settles, the Session fails, or the next microtask runs. -/
inductive Action (ε α κ : Type)
  | enqueue (exempt : Bool)
  | maintain
  | onLine
  | touch (key : Option κ)
  | onJobEnd
  | admitKeys (keys : List κ)
  | leave (result : Except (Failure ε) α)
  | settle (index : Nat)
  | publish (index : Nat)
  | refuse (index : Nat) (failure : Failure ε)
  | fail (index : Option Nat) (own : List Nat)
  | tick

namespace State

variable {ε α κ : Type}

def maxOutstanding : Nat := 256

def blank : Job ε α κ where
  kind := .upkeep
  before := none
  line := .queued
  hit := false
  met := []
  admitted := false
  part := none
  ends := []
  outcome := .idle
  publication := .idle
  fence := .idle
  delivery := .idle
  fenced := true
  value := none

def start : State ε α κ where
  jobs := fun _ => blank
  nextIndex := 0
  current := none
  fence := none
  tasks := ⟨0, []⟩
  outstanding := 0
  lastDelivered := -1
  failure := none
  unpublished := []
  nextEnd := 0
  endsRun := []
  delivered := []

def setJob (state : State ε α κ) (index : Nat) (job : Job ε α κ) : State ε α κ :=
  { state with jobs := Function.update state.jobs index job }

/-- Queue reactions of a job. -/
def queue (state : State ε α κ) (index : Nat) (chains : List Chain) : State ε α κ :=
  { state with tasks := state.tasks.pushAll (chains.map fun chain => (index, chain)) }

/-- The fence behind a job settled; the first one is settled from the start. -/
def opened (state : State ε α κ) : Option Nat → Bool
  | none => true
  | some index => (state.jobs index).fence.isFinished

/-- Take the next place in line. -/
def add (state : State ε α κ) (job : Job ε α κ) : State ε α κ :=
  { state.setJob state.nextIndex job with nextIndex := state.nextIndex + 1 }

def enqueue (state : State ε α κ) (exempt : Bool) : State ε α κ :=
  let opened := state.opened state.fence
  let stage := if opened then .called (state.tasks.clock + 1) else .blocked
  let job := { (blank : Job ε α κ) with
    kind := if exempt then .exempt else .ordinary
    before := state.fence
    fence := stage
    delivery := if exempt then .idle else stage }
  let chains := if opened then (if exempt then [.fence] else [.fence, .delivery]) else []
  { (state.add job).queue state.nextIndex chains with fence := some state.nextIndex }

/-- Whether a touch of the key waits for an unpublished writer. -/
def gated [DecidableEq κ] (state : State ε α κ) : Option κ → Bool
  | none => !state.unpublished.isEmpty
  | some key => state.unpublished.any fun part => key ∈ part.2

/-- The job has no outcome of its own after the failure's. -/
def poisoned (state : State ε α κ) (index : Nat) : Bool :=
  match state.failure with
  | none => false
  | some (failAt, own) => decide (failAt < index) && decide (index ∉ own)

/-- The outcome the caller gets. -/
def answer (state : State ε α κ) (index : Nat) : Except (Failure ε) α :=
  if state.poisoned index then .error .sessionFailed
  else (state.jobs index).value.getD (.error .sessionFailed)

def deliver (state : State ε α κ) (index : Nat) : State ε α κ :=
  let fenced := (state.jobs index).fenced
  { state with
    lastDelivered := if fenced then index else state.lastDelivered
    outstanding := state.outstanding - 1
    delivered := state.delivered ++ [⟨index, fenced, state.answer index⟩] }

/-- The fence behind a job settled: the chains of the next job that wait for it go on. -/
def openFence (state : State ε α κ) (index : Nat) : State ε α κ :=
  let behind := (List.range state.nextIndex).filter fun other =>
    (state.jobs other).before = some index
  { state with
    jobs := fun other => if (state.jobs other).before = some index
      then (state.jobs other).open_ state.tasks.clock else state.jobs other
    tasks := state.tasks.pushAll (behind.flatMap fun other =>
      (state.jobs other).opens.map fun chain => (other, chain)) }

/-- Run a microtask. -/
def react (state : State ε α κ) (index : Nat) (chain : Chain) : State ε α κ :=
  let job := state.jobs index
  let effect := job.react state.tasks.clock (state.opened job.before) chain
  let after := { (state.setJob index effect.job).queue index effect.queued with
    endsRun := state.endsRun ++ effect.ended }
  match chain with
  | .fence => if effect.job.fence.isFinished then after.openFence index else after
  | .delivery => if effect.job.delivery.isFinished then after.deliver index else after
  | _ => after

/-- The part of a job's commit settled. -/
def settlePart (state : State ε α κ) (index : Nat) (result : Except (Failure ε) Unit) :
    State ε α κ :=
  let job := state.jobs index
  let waits := job.publication = .blocked
  let later := { job with
    part := some result
    publication := if waits then .called (state.tasks.clock + 1) else job.publication }
  { (state.setJob index later).queue index (if waits then [.publication] else []) with
    unpublished := state.unpublished.filter fun part => part.1 ≠ index }

/-- A job's promise settled: its reactions are queued. -/
def settleRan (state : State ε α κ) (index : Nat) (result : Except (Failure ε) α) : State ε α κ :=
  let job := state.jobs index
  let tick := state.tasks.clock + 1
  match job.kind with
  | .upkeep => state.setJob index { job with line := .ran result }
  | .ordinary =>
    (state.setJob index { job with line := .ran result, outcome := .called tick }).queue index
      [.outcome]
  | .exempt =>
    (state.setJob index { job with
      line := .ran result, outcome := .called tick, delivery := .choosing tick }).queue index
      [.outcome, .delivery]

/-- The first job that has not started. -/
def nextJob (state : State ε α κ) : Option Nat :=
  (List.range state.nextIndex).find? fun index =>
    match (state.jobs index).line with
    | .queued => true
    | _ => false

/-- The line is free: every job that started has settled. -/
def free (state : State ε α κ) : Bool :=
  (List.range state.nextIndex).all fun index =>
    match (state.jobs index).line with
    | .queued => true
    | .ran _ => true
    | _ => false

def step [DecidableEq κ] (state : State ε α κ) : Action ε α κ → Option (State ε α κ)
  | .enqueue exempt => if state.failure.isNone then some (state.enqueue exempt) else none
  | .maintain => some (state.add blank)
  | .onLine =>
    match state.nextJob with
    | none => none
    | some index =>
      let job := state.jobs index
      let begun := { state.setJob index { job with line := .onLine } with current := some index }
      if ¬ state.free then none
      else if job.kind = .upkeep then some begun
      else if state.outstanding < maxOutstanding then
        some { begun with outstanding := state.outstanding + 1 }
      else none
  | .touch key =>
    match state.current with
    | none => some state
    | some index =>
      let job := state.jobs index
      if state.gated key then
        some (state.setJob index { job with hit := true, met := job.met ++ [key] })
      else some state
  | .onJobEnd =>
    match state.current with
    | none => some { state with
        nextEnd := state.nextEnd + 1, endsRun := state.endsRun ++ [state.nextEnd] }
    | some index =>
      let job := state.jobs index
      -- The chain loads that pin nodes belong to commits and reads.
      if job.kind = .upkeep then none
      else some { state.setJob index { job with ends := job.ends ++ [state.nextEnd] } with
        nextEnd := state.nextEnd + 1 }
  | .admitKeys keys =>
    match state.current with
    | none => none
    | some index =>
      let job := state.jobs index
      if job.admitted then none
      else some { state.setJob index { job with admitted := true } with
        unpublished := state.unpublished ++ [(index, keys)] }
  | .leave result =>
    match state.current with
    | none => none
    | some index =>
      let job := state.jobs index
      -- Nothing after an admission throws.
      if job.admitted ∧ job.kind ≠ .upkeep ∧ result.toOption.isNone then none
      else some { state.setJob index { job with line := .left result } with current := none }
  | .settle index =>
    if index < state.nextIndex then
      match (state.jobs index).line with
      | .left result => some (state.settleRan index result)
      | _ => none
    else none
  | .publish index =>
    if index < state.nextIndex ∧ (state.jobs index).admitted ∧ (state.jobs index).part.isNone then
      some (state.settlePart index (.ok ()))
    else none
  | .refuse index failure =>
    if index < state.nextIndex ∧ (state.jobs index).admitted ∧ (state.jobs index).part.isNone then
      some (state.settlePart index (.error failure))
    else none
  | .fail index own =>
    match state.failure with
    | some _ => some state
    | none =>
      let failAt : Int := match index with
        | some index => index
        | none => match state.current with
          | some index => index
          | none => state.lastDelivered
      some { state with failure := some (failAt, own) }
  | .tick =>
    match state.tasks.pop with
    | none => none
    | some ((index, chain), tasks) => some ({ state with tasks := tasks }.react index chain)

end State

end Hummin.SessionLine
