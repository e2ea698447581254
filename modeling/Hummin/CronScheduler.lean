/-
Scheduled runs over the store file: creations and deletions, scheduler passes and exit records,
each a call of some session.  Reading and writing the file are steps of their own, and a call
waits between them where the code does; passes and exit records hold the scheduler lock.
-/
import Mathlib.Logic.Function.Basic
import Hummin.CronStore
import Hummin.EventHistory
import Hummin.Machine

namespace Hummin.Cron

/-- The configuration, review and receipt of a dispatch review that lets a run go. -/
structure Approval where
  model : JsString
  thinking : JsString
  reviewId : Option JsString
  receipt : Option JsString
deriving DecidableEq

/-- What a pass writes into an entry: a hold, or a run with its approval if it was reviewed. -/
inductive Record
  | held (reason reviewId : Option JsString)
  | ran (approval : Option Approval) (now : Int) (pid : Nat)
deriving DecidableEq

def CronEntry.approved (entry : CronEntry) : Option Approval → CronEntry
  | some approval =>
    { entry with
      model := some approval.model
      thinking := some approval.thinking
      reviewId := approval.reviewId
      receipt := approval.receipt
      heldReason := none }
  | none => entry

def Record.applyTo (entry : CronEntry) : Record → CronEntry
  | .held reason reviewId => { entry with heldReason := reason, reviewId := reviewId }
  | .ran approval now pid =>
    { entry.approved approval with
      lastRun := some now, lastPid := some pid, queuedSince := some now, lastExit := none }

/-- The parameters of `cron_create`, its schedule trimmed. -/
structure Params where
  name : JsString
  schedule : JsString
  prompt : JsString
  cwd : JsString
deriving DecidableEq

def Params.entry (params : Params) (approval : Approval) (createdAt : Int) : CronEntry where
  name := params.name
  schedule := trim params.schedule
  cwd := params.cwd
  prompt := params.prompt
  model := some approval.model
  thinking := some approval.thinking
  reviewId := approval.reviewId
  heldReason := none
  receipt := approval.receipt
  createdAt := createdAt
  lastRun := none
  lastExit := none
  lastPid := none
  queuedSince := none

/-- Where a pass is; `rest` are the due entries after the one at hand. -/
inductive PassStage
  | locked
  | loop (rest : List CronEntry)
  | reviewing (entry : CronEntry) (rest : List CronEntry)
  | briefing (entry : CronEntry) (approval : Option Approval) (rest : List CronEntry)
  | recording (entry : CronEntry) (record : Record) (read : Option (List CronEntry))
      (rest : List CronEntry)
deriving DecidableEq

/-- Where an exit record is. -/
inductive ExitStage
  | waiting (attempt : Nat)
  | locked
  | found
  | writing (read : List CronEntry)
  | releasing
deriving DecidableEq

/-- Where a call is: `read` is what it has read of the file, once it has. -/
inductive Call
  | idle
  | creating (params : Params)
  | upserting (entry : Params × Approval × Int) (read : Option (List CronEntry))
  | deleting (name : JsString) (read : Option (List CronEntry))
  | passing (now : Int) (reviews : Bool) (stage : PassStage)
  | exiting (name : JsString) (pid : Nat) (code : Option Int) (stage : ExitStage)
deriving DecidableEq

/-- The changes of the store that were written, and the runs that were spawned. -/
inductive Event
  | created (entry : CronEntry)
  | deleted (name : JsString)
  | recorded (name : JsString) (record : Record)
  | exited (name : JsString) (pid : Nat) (code : Option Int)
  | spawned (name : JsString) (time : Int)
deriving DecidableEq

structure State where
  clock : Int
  entries : List CronEntry
  lock : Option Nat
  calls : Nat → Call
  log : List Event

def start (clock : Int) : State := ⟨clock, [], none, fun _ => .idle, []⟩

/-- What a waiting call is answered: the verdict of a review, the pid of a spawned child or
none; anything else just goes on. -/
inductive Answer
  | go
  | allow (approval : Approval)
  | block (reason reviewId : Option JsString)
  | spawned (pid : Option Nat)

inductive Input
  | tick (ms : Nat)
  | create (call : Nat) (params : Params)
  | delete (call : Nat) (name : JsString)
  | pass (call : Nat) (reviews : Bool)
  | exit (call : Nat) (name : JsString) (pid : Nat) (code : Option Int)
  | advance (call : Nat) (answer : Answer)
  | die (call : Nat)

def exitRetries : Nat := 5

namespace State

def moveTo (state : State) (call : Nat) (next : Call) : State :=
  { state with calls := Function.update state.calls call next }

def write (state : State) (entries : List CronEntry) (event : Event) : State :=
  { state with entries := entries, log := state.log ++ [event] }

def log1 (state : State) (event : Event) : State :=
  { state with log := state.log ++ [event] }

def acquire (state : State) (call : Nat) : State := { state with lock := some call }

def release (state : State) : State := { state with lock := none }

end State

section Steps

variable (dayStart : Int → Int)

/-- The next step of a pass. -/
def advancePass (state : State) (call : Nat) (now : Int) (reviews : Bool) (answer : Answer) :
    PassStage → Option State
  | .locked =>
    some (state.moveTo call (.passing now reviews (.loop (dueEntries dayStart state.entries now))))
  | .loop [] => some (state.release.moveTo call .idle)
  | .loop (entry :: rest) =>
    some (state.moveTo call (.passing now reviews
      (if reviews then .reviewing entry rest else .briefing entry none rest)))
  | .reviewing entry rest =>
    match answer with
    | .block reason reviewId =>
      some (state.moveTo call
        (.passing now reviews (.recording entry (.held reason reviewId) none rest)))
    | .allow approval =>
      some (state.moveTo call (.passing now reviews (.briefing entry (some approval) rest)))
    | _ => none
  | .briefing entry approval rest =>
    match answer with
    | .spawned (some pid) =>
      some ((state.log1 (.spawned entry.name state.clock)).moveTo call
        (.passing now reviews (.recording entry (.ran approval now pid) none rest)))
    | .spawned none => some (state.moveTo call (.passing now reviews (.loop rest)))
    | _ => none
  | .recording entry record none rest =>
    some (state.moveTo call
      (.passing now reviews (.recording entry record (some state.entries) rest)))
  | .recording entry record (some read) rest =>
    some ((state.write (upsert read (record.applyTo entry)) (.recorded entry.name record)).moveTo
      call (.passing now reviews (.loop rest)))

/-- The next step of an exit record. -/
def advanceExit (state : State) (call : Nat) (name : JsString) (pid : Nat) (code : Option Int) :
    ExitStage → State
  | .waiting attempt =>
    if state.lock = none then
      (state.acquire call).moveTo call (.exiting name pid code .locked)
    else if attempt < exitRetries then
      state.moveTo call (.exiting name pid code (.waiting (attempt + 1)))
    else state.moveTo call .idle
  | .locked =>
    if (getEntry state.entries name).any fun entry => entry.lastPid == some pid then
      state.moveTo call (.exiting name pid code .found)
    else state.moveTo call (.exiting name pid code .releasing)
  | .found => state.moveTo call (.exiting name pid code (.writing state.entries))
  | .writing read =>
    (state.write (withExit read name pid code) (.exited name pid code)).moveTo call
      (.exiting name pid code .releasing)
  | .releasing => state.release.moveTo call .idle

/-- The next step of a call. -/
def advance (state : State) (call : Nat) (answer : Answer) : Option State :=
  match state.calls call with
  | .idle => none
  | .creating params =>
    match answer with
    | .allow approval => some (state.moveTo call (.upserting (params, approval, state.clock) none))
    | .block _ _ => some (state.moveTo call .idle)
    | _ => none
  | .upserting entry none => some (state.moveTo call (.upserting entry (some state.entries)))
  | .upserting (params, approval, createdAt) (some read) =>
    let entry := params.entry approval createdAt
    some ((state.write (upsert read entry) (.created entry)).moveTo call .idle)
  | .deleting name none =>
    some (state.moveTo call (.deleting name (some state.entries)))
  | .deleting name (some read) =>
    if (getEntry read name).isSome then
      some ((state.write (without read name) (.deleted name)).moveTo call .idle)
    else some (state.moveTo call .idle)
  | .passing now reviews stage => advancePass dayStart state call now reviews answer stage
  | .exiting name pid code stage => some (advanceExit state call name pid code stage)

/-- `cron_create` refuses a bad name or schedule, and a name that the store has. -/
def createCall (state : State) (call : Nat) (params : Params) : State :=
  if isValidCronName params.name ∧ (parseSchedule params.schedule).isOk ∧
      getEntry state.entries params.name = none then
    state.moveTo call (.creating params)
  else state

def step (state : State) : Input → Option State
  | .tick ms => some { state with clock := state.clock + ms }
  | .create call params =>
    if state.calls call = .idle then some (createCall state call params) else none
  | .delete call name =>
    if state.calls call = .idle then some (state.moveTo call (.deleting name none)) else none
  | .pass call reviews =>
    if state.calls call = .idle then
      if state.lock = none then
        some ((state.acquire call).moveTo call (.passing state.clock reviews .locked))
      else some state
    else none
  | .exit call name pid code =>
    if state.calls call = .idle then
      some (state.moveTo call (.exiting name pid code (.waiting 0)))
    else none
  | .advance call answer => advance dayStart state call answer
  | .die call =>
    some ((if state.lock = some call then state.release else state).moveTo call .idle)

end Steps

/-! ## What the store owes to its writers -/

/-- The entries after one more event, each by its name. -/
def bookAfter (book : JsString → Option CronEntry) : Event → JsString → Option CronEntry
  | .created entry => Function.update book entry.name (some entry)
  | .deleted name => Function.update book name none
  | .recorded name record => Function.update book name ((book name).map record.applyTo)
  | .exited name pid code =>
    Function.update book name ((book name).map fun entry =>
      if entry.lastPid = some pid then { entry with lastExit := some code, queuedSince := none }
      else entry)
  | .spawned _ _ => book

/-- The entries that the events leave when each changes only what it is about. -/
def bookOf (log : List Event) : JsString → Option CronEntry :=
  log.foldl bookAfter fun _ => none

/-- An entry is created where its name has none, a record is of an entry that is there, and a
run is spawned while no wake of its entry is in flight. -/
def SpawnFits (past : List Event) : Event → Prop
  | .created entry => bookOf past entry.name = none
  | .spawned name time => ∀ entry, bookOf past name = some entry → isQueued entry time = false
  | .recorded name _ => bookOf past name ≠ none
  | _ => True

/-- An event puts an entry of this name in or takes it out. -/
def Replaces (name : JsString) : Event → Prop
  | .created entry => entry.name = name
  | .deleted other => other = name
  | _ => False

/-- A run of this entry is recorded, or the entry is replaced. -/
def ReplacesRun (name : JsString) : Event → Prop
  | .recorded other (.ran _ _ _) => other = name
  | event => Replaces name event

/-- A reviewed run of this entry is recorded, or the entry is replaced. -/
def ReplacesReview (name : JsString) : Event → Prop
  | .recorded other (.ran (some _) _ _) => other = name
  | event => Replaces name event

/-- A hold or a reviewed run of this entry is recorded, or the entry is replaced. -/
def ReplacesHold (name : JsString) : Event → Prop
  | .recorded other (.held _ _) => other = name
  | event => ReplacesReview name event

/-- A run or an exit of this entry is recorded, or the entry is replaced. -/
def ReplacesExit (name : JsString) : Event → Prop
  | .exited other _ _ => other = name
  | event => ReplacesRun name event

/-- The parts of an entry that no record changes. -/
def SameCreation (entry created : CronEntry) : Prop :=
  entry.name = created.name ∧ entry.schedule = created.schedule ∧ entry.cwd = created.cwd ∧
    entry.prompt = created.prompt ∧ entry.createdAt = created.createdAt

/-- Nothing is lost, revived or doubled: the store is what the events leave, so a created entry
stays until it is deleted, a deleted one stays away, a record stays until a later one of its
entry replaces it, and no run is spawned while a wake of its entry is in flight. -/
structure Kept (state : State) : Prop where
  book : ∀ name, getEntry state.entries name = bookOf state.log name
  created : ∀ before entry after, state.log = before ++ .created entry :: after →
    (∀ event ∈ after, ¬ Replaces entry.name event) →
      ∃ found, getEntry state.entries entry.name = some found ∧ SameCreation found entry
  configured : ∀ before entry after, state.log = before ++ .created entry :: after →
    (∀ event ∈ after, ¬ ReplacesReview entry.name event) →
      ∃ found, getEntry state.entries entry.name = some found ∧ found.model = entry.model ∧
        found.thinking = entry.thinking
  deleted : ∀ before name after, state.log = before ++ .deleted name :: after →
    (∀ event ∈ after, ¬ Replaces name event) → ∀ entry ∈ state.entries, entry.name ≠ name
  ran : ∀ before name approval now pid after,
    state.log = before ++ .recorded name (.ran approval now pid) :: after →
      (∀ event ∈ after, ¬ ReplacesRun name event) →
        ∃ found, getEntry state.entries name = some found ∧ found.lastRun = some now ∧
          found.lastPid = some pid
  held : ∀ before name reason reviewId after,
    state.log = before ++ .recorded name (.held reason reviewId) :: after →
      (∀ event ∈ after, ¬ ReplacesHold name event) →
        ∃ found, getEntry state.entries name = some found ∧ found.heldReason = reason ∧
          found.reviewId = reviewId
  exited : ∀ before name pid code after, state.log = before ++ .exited name pid code :: after →
    (∀ event ∈ after, ¬ ReplacesExit name event) →
      ∀ entry, bookOf before name = some entry → entry.lastPid = some pid →
        ∃ found, getEntry state.entries name = some found ∧ found.lastExit = some code ∧
          found.queuedSince = none
  spawned : Along SpawnFits state.log

/-- The next step of a call writes over nothing: the file is as the call read it; a creation
finds no entry of its name there, and a pass finds the entry as it read it when it began. -/
def CallUnraced (entries : List CronEntry) : Call → Prop
  | .upserting (params, _, _) (some read) => entries = read ∧ getEntry entries params.name = none
  | .deleting name (some read) => getEntry read name = none ∨ entries = read
  | .passing _ _ (.recording entry _ (some read) _) =>
    entries = read ∧ getEntry entries entry.name = some entry
  | .exiting _ _ _ (.writing read) => entries = read
  | _ => True

instance decidableCallUnraced (entries : List CronEntry) :
    ∀ call, Decidable (CallUnraced entries call)
  | .idle => .isTrue trivial
  | .creating _ => .isTrue trivial
  | .upserting _ none => .isTrue trivial
  | .upserting (params, _, _) (some read) =>
    inferInstanceAs (Decidable (entries = read ∧ getEntry entries params.name = none))
  | .deleting _ none => .isTrue trivial
  | .deleting name (some read) =>
    inferInstanceAs (Decidable (getEntry read name = none ∨ entries = read))
  | .passing _ _ .locked => .isTrue trivial
  | .passing _ _ (.loop _) => .isTrue trivial
  | .passing _ _ (.reviewing _ _) => .isTrue trivial
  | .passing _ _ (.briefing _ _ _) => .isTrue trivial
  | .passing _ _ (.recording _ _ none _) => .isTrue trivial
  | .passing _ _ (.recording entry _ (some read) _) =>
    inferInstanceAs (Decidable (entries = read ∧ getEntry entries entry.name = some entry))
  | .exiting _ _ _ (.waiting _) => .isTrue trivial
  | .exiting _ _ _ .locked => .isTrue trivial
  | .exiting _ _ _ .found => .isTrue trivial
  | .exiting _ _ _ (.writing read) => inferInstanceAs (Decidable (entries = read))
  | .exiting _ _ _ .releasing => .isTrue trivial

/-- No write loses another. -/
def Unraced (state : State) : Input → Prop
  | .advance call _ => CallUnraced state.entries (state.calls call)
  | _ => True

instance decidableUnraced (state : State) : ∀ input, Decidable (Unraced state input)
  | .advance call _ => inferInstanceAs (Decidable (CallUnraced state.entries (state.calls call)))
  | .tick _ => .isTrue trivial
  | .create _ _ => .isTrue trivial
  | .delete _ _ => .isTrue trivial
  | .pass _ _ => .isTrue trivial
  | .exit _ _ _ _ => .isTrue trivial
  | .die _ => .isTrue trivial

end Hummin.Cron
