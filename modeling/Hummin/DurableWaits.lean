/-
Durable waits: the committed operations of a scheduler, decided one after another.  A
transaction creates tasks and conversations; a task then waits, or tasks are marked or
change state, in the same commit.
-/
import Hummin.WaitCycle

namespace Hummin.Scheduler

def TaskState.status : TaskState → String
  | .pending => "pending"
  | .running => "running"
  | .waiting _ _ => "waiting"
  | .sleeping => "sleeping"
  | .completing => "completing"
  | .terminal => "terminal"

/-- A record a transaction creates.  Other records took the `skipped` ids minted before its own. -/
inductive Create
  | conversation (skipped : Nat) (owner : Option TaskId)
  | task (skipped : Nat) (owner : Option TaskId) (conversationId : Option ConversationId)
      (background : Bool)
deriving DecidableEq, Repr

/-- The tables a transaction has staged, and the next id to mint. -/
structure Transaction where
  overlay : Overlay
  minted : Nat
deriving DecidableEq, Repr

namespace Transaction

/-- A task's candidate record, or its committed one. -/
def currentTask (tx : Transaction) (stored : Stored) (id : TaskId) : Option TaskRecord :=
  match tx.overlay.task id with
  | some record => some record
  | none => stored.tasks id

def hasConversation (tx : Transaction) (stored : Stored) (id : ConversationId) : Bool :=
  (tx.overlay.edge id).isSome || (stored.conversations id).isSome

/-- The conversation a new task lives in: its owner's, or the one named or else bound to. -/
def conversationOf (tx : Transaction) (stored : Stored) (scope : Option ConversationId)
    (owner : Option TaskId) (conversationId : Option ConversationId) (background : Bool) :
    Except String ConversationId :=
  match owner with
  | some owner =>
    match tx.currentTask stored owner with
    | none => .error s!"Task owner {owner} does not exist"
    | some record =>
      let conversation := record.conversationId
      if background then .error "A child task cannot be background"
      else if conversationId.any (· ≠ conversation) then
        .error s!"A child task lives in its owner's conversation {conversation}"
      else .ok conversation
  | none =>
    match conversationId.or scope with
    | none => .error "Tx.createTask() requires options.conversationId"
    | some conversation => .ok conversation

def create (stored : Stored) (scope : Option ConversationId) (tx : Transaction) :
    Create → Except String Transaction
  | .conversation skipped owner =>
    let id := tx.minted + skipped
    match owner.filter fun owner => (tx.currentTask stored owner).isNone with
    | some owner => .error s!"Conversation owner task {owner} does not exist"
    | none => .ok ⟨tx.overlay ++ [.conversation id owner], id + 1⟩
  | .task skipped owner conversationId background =>
    match tx.conversationOf stored scope owner conversationId background with
    | .error message => .error message
    | .ok conversation =>
      let id := tx.minted + skipped
      if tx.hasConversation stored conversation then
        .ok ⟨tx.overlay ++ [.task ⟨⟨conversation, owner, background⟩, id, .pending, false⟩], id + 1⟩
      else .error s!"Conversation {conversation} does not exist"

def createAll (stored : Stored) (scope : Option ConversationId) (creates : List Create) :
    Except String Transaction :=
  creates.foldlM (create stored scope) ⟨[], stored.nextId⟩

/-- New owned work needs a live owner, judged on the owner's final candidate. -/
def validateOwner (tasks : TaskId → Option TaskRecord) (what : String) (id : TaskId) :
    Except String Unit :=
  match tasks id with
  | none => .error s!"{what} {id} does not exist"
  | some record =>
    let status := record.state.status
    if record.state = .terminal ∨ record.state = .completing then
      .error s!"{what} {id} is {status}"
    else if record.abortRequested then .error s!"{what} {id} is abort-marked"
    else .ok ()

def validateOwners (tx : Transaction) (tasks : TaskId → Option TaskRecord) : Except String Unit := do
  (Commit.edges tx.overlay |>.filterMap Prod.snd).forM
    (validateOwner tasks "Conversation owner task")
  (Commit.records tx.overlay |>.filterMap fun record => record.owner).forM
    (validateOwner tasks "Task owner")

end Transaction

/-! ### Waits -/

/-- Whether an invocation runs its task, or its task's abort handler. -/
inductive Mode
  | run
  | abort
deriving DecidableEq, Repr

/-- What the check of a wait says: the wait may be stored, it needs tasks from storage
first, or it is refused. -/
inductive Checked
  | accepted
  | missing (ids : List TaskId)
  | refused (message : String)
deriving DecidableEq, Repr

namespace Memory

/-- A member of `on`: `some none` for one that is not stored, `none` for one not read yet. -/
def member (memory : Memory) (overlay : Overlay) (ended : TaskId → Option (Option TaskRecord))
    (id : TaskId) : Option (Option TaskRecord) :=
  match memory.recordIn overlay id with
  | some record => some (some record)
  | none => ended id

/-- The members a wait adds an edge to, and those to read from storage first.  A live child
already holds the waiter, and a terminal task has no edges. -/
def targets (memory : Memory) (overlay : Overlay) (ended : TaskId → Option (Option TaskRecord))
    (current : TaskId) (policy : JoinPolicy) :
    List TaskId → Except String (List TaskId × List TaskId)
  | [] => .ok ([], [])
  | id :: on =>
    match memory.member overlay ended id with
    | none => do
        let (targets, missing) ← targets memory overlay ended current policy on
        return (targets, id :: missing)
    | some none => .error s!"Task {id} does not exist"
    | some (some record) =>
      if policy = .failFast ∧ record.owner ≠ some current then
        .error s!"Task {current} can wait failFast only on tasks it owns; {id} is not one"
      else do
        let (targets, missing) ← targets memory overlay ended current policy on
        return (if record.isLive ∧ record.owner ≠ some current then id :: targets else targets,
          missing)

def cycleMessage (current : TaskId) (cycle : List TaskId) : String :=
  let first := (cycle.map toString).headD "undefined"
  let path := String.intercalate " -> " ((current :: cycle).map toString)
  s!"Task {current} cannot wait on {first}: {path} is a wait cycle"

/-- The decision of a wait. -/
def checkWait (memory : Memory) (tx : Transaction) (ended : TaskId → Option (Option TaskRecord))
    (current : TaskId) (on : List TaskId) (policy : JoinPolicy) : Checked :=
  match memory.targets tx.overlay ended current policy on with
  | .error message => .refused message
  | .ok (targets, missing) =>
    if missing ≠ [] then .missing missing
    else if targets = [] then .accepted
    else match memory.waitCycle tx.minted tx.overlay current targets with
      | none => .accepted
      | some cycle => .refused (cycleMessage current cycle)

/-- A wait names existing tasks, and `failFast` only tasks the waiter owns; it may not close
a cycle.  Members that are not live are read from storage, and the check repeated. -/
def validateWait (memory : Memory) (stored : Stored) (tx : Transaction) (mode : Mode)
    (current : TaskId) (on : List TaskId) (policy : JoinPolicy) : Checked :=
  if mode = .abort then .refused s!"Abort handler of task {current} cannot wait"
  else match memory.checkWait tx (fun _ => none) current on policy with
    | .missing ids => memory.checkWait tx
        (fun id => if id ∈ ids then some (stored.tasks id) else none) current on policy
    | checked => checked

end Memory

/-! ### Operations -/

/-- A change of a live task other than a wait. -/
inductive Update
  | mark
  | pending
  | running
  | sleeping
  | completing
  | terminal
deriving DecidableEq, Repr

def Update.record (record : TaskRecord) : Update → TaskRecord
  | .mark => { record with abortRequested := true }
  | .pending => { record with state := .pending }
  | .running => { record with state := .running }
  | .sleeping => { record with state := .sleeping }
  | .completing => { record with state := .completing }
  | .terminal => { record with state := .terminal }

/-- Records that replace live ones, each on the candidates the earlier ones leave. -/
def setTasks (tasks : TaskId → Option TaskRecord) :
    List (TaskId × Update) → Except String (List TaskRecord × (TaskId → Option TaskRecord))
  | [] => .ok ([], tasks)
  | (id, update) :: rest =>
    match tasks id with
    | none => .error s!"Task {id} does not exist"
    | some record =>
      if record.state = .terminal then .error s!"Task {id} is already terminal"
      else do
        let next := update.record record
        let (records, tasks) ← setTasks (Function.update tasks id (some next)) rest
        return (next :: records, tasks)

/-- A committed operation: creations with changes of tasks, a runtime commit in which a task
waits, or the restart of a scheduler over its store.  A job may load the chains of all live
tasks, and of single nodes. -/
inductive Operation
  | commit (scopes : Bool) (loads : List Node) (scope : Option ConversationId)
      (creates : List Create) (updates : List (TaskId × Update))
  | wait (task : TaskId) (mode : Mode) (creates : List Create) (on : List TaskId)
      (policy : JoinPolicy)
  | reopen

/-- A store, and a scheduler's memory of it. -/
structure World where
  stored : Stored
  memory : Memory

namespace World

def start : World :=
  ⟨⟨fun _ => none, fun _ => none, 0⟩, .empty⟩

def decideCommit (stored : Stored) (scope : Option ConversationId) (creates : List Create)
    (updates : List (TaskId × Update)) : Except String Commit := do
  let tx ← Transaction.createAll stored scope creates
  let (records, tasks) ← setTasks (tx.currentTask stored) updates
  tx.validateOwners tasks
  return tx.overlay ++ records.map Write.task

/-- The running task whose runtime commits; a run does not commit past an abort mark. -/
def gated (memory : Memory) (task : TaskId) (mode : Mode) : Except String TaskRecord :=
  match memory.live task with
  | none => .error s!"Task {task} is terminal"
  | some current =>
    let status := current.state.status
    if current.state ≠ .running then .error s!"Task {task} is {status}"
    else if mode = .run ∧ current.abortRequested then
      .error s!"Task {task} has a durable abort mark"
    else .ok current

def decideWait (stored : Stored) (memory : Memory) (task : TaskId) (mode : Mode)
    (creates : List Create) (on : List TaskId) (policy : JoinPolicy) : Except String Commit := do
  let current ← gated memory task mode
  let tx ← Transaction.createAll stored (some current.conversationId) creates
  match memory.validateWait stored tx mode task on policy with
  -- The second look misses nothing.
  | .missing _ => .error ""
  | .refused message => .error message
  | .accepted =>
    let next := { current with state := .waiting on policy }
    tx.validateOwners (Function.update (tx.currentTask stored) task (some next))
    return tx.overlay ++ [Write.task next]

/-- The end of a job: its commit is stored and published, if it decided on one. -/
def finish (stored : Stored) (memory : Memory) : Except String Commit → World
  | .error _ => ⟨stored, memory.endJob⟩
  | .ok commit =>
    match stored.apply commit with
    | none => ⟨stored, memory.endJob⟩
    | some next => ⟨next, ((memory.loadChains stored commit (Memory.memberships stored commit)).observe
        commit).endJob⟩

/-- A scheduler opened over a store tracks its live tasks, and has those that ran reserved
again. -/
def reopened (stored : Stored) : Memory × Except String Commit :=
  (stored.scanLive.foldl Memory.track .empty,
    decideCommit stored none [] (stored.scanLive.filterMap fun record =>
      if record.state = .running then some (record.id, .pending) else none))

def step (world : World) : Operation → World
  | .commit scopes loads scope creates updates =>
    let overlay := match Transaction.createAll world.stored scope creates with
      | .ok tx => tx.overlay
      | .error _ => []
    let memory := if scopes then world.memory.loadScopes world.stored else world.memory
    let loaded := memory.loadChains world.stored overlay
      (loads.filter fun node => Commit.writes overlay node || world.stored.has node)
    finish world.stored loaded (decideCommit world.stored scope creates updates)
  | .wait task mode creates on policy =>
    let loaded := world.memory.loadScopes world.stored
    finish world.stored loaded (decideWait world.stored loaded task mode creates on policy)
  | .reopen => finish world.stored (reopened world.stored).1 (reopened world.stored).2

def run (operations : List Operation) : World :=
  operations.foldl step start

end World

end Hummin.Scheduler
