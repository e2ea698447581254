/-
The cache of a session's records.  Reads that the cache cannot answer go to the
storage, which may answer with any state of the record from the read's start on;
stored writes reach the cache when they are published.
-/
import Hummin.Lru
import Hummin.Machine

namespace Hummin.RecordCache

/-- Ids are drawn from one namespace for all records. -/
abbrev Id := Nat

inductive Kind
  | conversation
  | task
  | submission
deriving DecidableEq

/-- The state of a task, as far as the cache looks at it. -/
inductive TaskState
  | live
  | waiting (on : List Id)
  | terminal
deriving DecidableEq

/-- A record.  Its version, the number of its writes so far, is not stored; the state
of a record that is not a task plays no part. -/
structure Record where
  kind : Kind
  id : Id
  state : TaskState
  version : Nat
deriving DecidableEq

/-- How many waits name a task, and its ended record once it ended. -/
structure Awaited where
  count : Nat
  record : Option Record
deriving DecidableEq

/-- What a task waits on, and whether it left the wait. -/
structure Wait where
  on : List Id
  left : Bool
deriving DecidableEq

/-- The reads in flight of a record, and how many publications wrote it meanwhile. -/
structure Reads where
  count : Nat
  version : Nat
deriving DecidableEq

structure Cache where
  conversations : List (Id × Record)
  liveTasks : List (Id × Record)
  awaited : List (Id × Awaited)
  waits : List (Id × Wait)
  tasks : List (Id × Record)
  submissions : List (Id × Record)
  reads : List (Id × Reads)
deriving DecidableEq

def conversationCapacity : Nat := 4096
def taskCapacity : Nat := 256
def submissionCapacity : Nat := 256

/-! ### Publications -/

/-- Keep a task record: a live one until its task ends, an ended one for the waits that
name it or in the bounded table. -/
def keepTask (record : Record) (cache : Cache) : Cache :=
  if record.state = .terminal then
    let ended := { cache with liveTasks := PropertyList.erase record.id cache.liveTasks }
    match PropertyList.get record.id cache.awaited with
    | some awaited => { ended with
        awaited := JsMap.set record.id { awaited with record := some record }
          cache.awaited }
    | none => { ended with
        tasks := Lru.set taskCapacity record.id record cache.tasks }
  else { cache with
    tasks := PropertyList.erase record.id cache.tasks
    liveTasks := JsMap.set record.id record cache.liveTasks }

/-- A wait on the ids is over; `none` when an id has no entry, on which the code throws. -/
def release : List Id → Cache → Option Cache
  | [], cache => some cache
  | id :: rest, cache =>
    match PropertyList.get id cache.awaited with
    | none => none
    | some awaited =>
      if 0 < awaited.count - 1 then
        release rest { cache with
          awaited := JsMap.set id { awaited with count := awaited.count - 1 }
            cache.awaited }
      else
        release rest { cache with
          awaited := PropertyList.erase id cache.awaited
          tasks :=
            match awaited.record with
            | some record => Lru.set taskCapacity id record cache.tasks
            | none => cache.tasks }

/-- One more wait names an id; a task that ended already moves over from the bounded
table. -/
def await (cache : Cache) (id : Id) : Cache :=
  match PropertyList.get id cache.awaited with
  | some awaited => { cache with
      awaited := JsMap.set id { awaited with count := awaited.count + 1 } cache.awaited }
  | none => { cache with
      tasks := PropertyList.erase id (Lru.get id cache.tasks).2
      awaited := JsMap.set id ⟨1, (Lru.get id cache.tasks).1⟩ cache.awaited }

/-- Release the wait of a task, if it has one. -/
def releaseWait (wait : Option Wait) (cache : Cache) : Option Cache :=
  match wait with
  | some wait => release wait.on cache
  | none => some cache

/-- A task waits, in place of a wait that it had. -/
def startWait (task : Id) (on : List Id) (cache : Cache) : Option Cache :=
  (releaseWait (PropertyList.get task cache.waits) cache).map fun released =>
    on.foldl await { released with
      waits := JsMap.set task ⟨on, false⟩ released.waits }

/-- A task that does not wait: it leaves its wait first, and gives it up when it changes
again or ends. -/
def leaveWait (record : Record) (cache : Cache) : Option Cache :=
  match PropertyList.get record.id cache.waits with
  | none => some cache
  | some wait =>
    if wait.left = false ∧ record.state ≠ .terminal then
      some { cache with
        waits := JsMap.set record.id { wait with left := true } cache.waits }
    else release wait.on { cache with waits := PropertyList.erase record.id cache.waits }

/-- Follow a task's waits from its written record. -/
def followWait (record : Record) (cache : Cache) : Option Cache :=
  match record.state with
  | .waiting on => startWait record.id on cache
  | _ => leaveWait record cache

/-- A published commit wrote a record. -/
def wrote (id : Id) (cache : Cache) : Cache :=
  match PropertyList.get id cache.reads with
  | some reads => { cache with
      reads := JsMap.set id { reads with version := reads.version + 1 } cache.reads }
  | none => cache

/-- Apply one write of a published batch. -/
def publishWrite (record : Record) (cache : Cache) : Option Cache :=
  let marked := wrote record.id cache
  match record.kind with
  | .conversation => some { marked with
      conversations := Lru.set conversationCapacity record.id record marked.conversations }
  | .task => (followWait record marked).map (keepTask record)
  | .submission => some { marked with
      submissions := Lru.set submissionCapacity record.id record marked.submissions }

/-! ### Reads -/

/-- The cached record of a read, and the cache after looking for it. -/
def lookup (kind : Kind) (id : Id) (cache : Cache) : Option Record × Cache :=
  match kind with
  | .conversation =>
    let found := Lru.get id cache.conversations
    (found.1, { cache with conversations := found.2 })
  | .task =>
    match (PropertyList.get id cache.liveTasks).or
        ((PropertyList.get id cache.awaited).bind Awaited.record) with
    | some record => (some record, cache)
    | none =>
      let found := Lru.get id cache.tasks
      (found.1, { cache with tasks := found.2 })
  | .submission =>
    let found := Lru.get id cache.submissions
    (found.1, { cache with submissions := found.2 })

/-- A read that is kept registers; the version of the record's reads is returned. -/
def register (id : Id) (cache : Cache) : Nat × Cache :=
  let reads := (PropertyList.get id cache.reads).getD ⟨0, 0⟩
  (reads.version,
    { cache with reads := JsMap.set id { reads with count := reads.count + 1 } cache.reads })

/-- The read ended; the version that its record has now is returned. -/
def unregister (id : Id) (cache : Cache) : Nat × Cache :=
  let reads := (PropertyList.get id cache.reads).getD ⟨0, 0⟩
  (reads.version,
    if reads.count - 1 = 0 then { cache with reads := PropertyList.erase id cache.reads }
    else { cache with
      reads := JsMap.set id { reads with count := reads.count - 1 } cache.reads })

/-- Submissions are cached as written only. -/
def Kind.isKept : Kind → Bool
  | .submission => false
  | _ => true

/-- Keep a record that a read found. -/
def keepRead (record : Record) (cache : Cache) : Cache :=
  match record.kind with
  | .conversation => { cache with
      conversations := Lru.set conversationCapacity record.id record cache.conversations }
  | .task => keepTask record cache
  | .submission => cache

/-! ### Runs -/

/-- A read of the storage: its record, the version of the record's reads at its start,
and how many writes of the record were stored and how many published then. -/
structure Flight where
  token : Nat
  kind : Kind
  id : Id
  readsVersion : Nat
  stored : Nat
  published : Nat
deriving DecidableEq

/-- An ended read: the writes of the record published at its start, and the version of
the record it returned, none being version 0. -/
structure Answer where
  kind : Kind
  id : Id
  published : Nat
  version : Nat
deriving DecidableEq

/-- The cache, the states that the storage took for each record, the writes stored and
not published, how many writes of each record are published, and the reads. -/
structure State where
  cache : Cache
  history : Kind → Id → List TaskState
  unpublished : List Record
  published : Kind → Id → Nat
  flights : List Flight
  nextToken : Nat
  answers : List Answer

/-- The record at a version, from the states that the storage took. -/
def recordAt (history : Kind → Id → List TaskState) (kind : Kind) (id : Id) :
    Nat → Option Record
  | 0 => none
  | version + 1 => (history kind id)[version]?.map fun state =>
    ⟨kind, id, state, version + 1⟩

/-- Reads start, return and fail, writes are stored, and stored writes are published in
their order. -/
inductive Event
  | read (kind : Kind) (id : Id)
  | returned (token version : Nat)
  | rejected (token : Nat)
  | stored (kind : Kind) (id : Id) (state : TaskState)
  | published
deriving DecidableEq

/-- An empty cache over a storage that holds the given states. -/
def State.start (history : Kind → Id → List TaskState) : State where
  cache := ⟨[], [], [], [], [], [], []⟩
  history
  unpublished := []
  published kind id := (history kind id).length
  flights := []
  nextToken := 0
  answers := []

/-- Start a read: from the cache, else from the storage. -/
def startRead (kind : Kind) (id : Id) (state : State) : State :=
  match lookup kind id state.cache with
  | (some record, cache) => { state with
      cache
      answers := state.answers ++ [⟨kind, id, state.published kind id, record.version⟩] }
  | (none, cache) =>
    let registered := if kind.isKept then register id cache else (0, cache)
    { state with
      cache := registered.2
      flights := state.flights ++ [⟨state.nextToken, kind, id, registered.1,
        (state.history kind id).length, state.published kind id⟩]
      nextToken := state.nextToken + 1 }

/-- End a read of the storage, and keep what it found unless it was written meanwhile. -/
def endRead (flight : Flight) (found : Option Record) (state : State) : State :=
  let remaining := { state with
    flights := state.flights.filter fun other => other.token ≠ flight.token }
  if flight.kind.isKept then
    let ended := unregister flight.id state.cache
    let cache :=
      match found with
      | some record =>
        if ended.1 = flight.readsVersion then keepRead record ended.2 else ended.2
      | none => ended.2
    { remaining with cache }
  else remaining

/-- Count a published write. -/
def countPublished (record : Record) (published : Kind → Id → Nat) : Kind → Id → Nat :=
  fun kind id => if kind = record.kind ∧ id = record.id then record.version
    else published kind id

/-- One step, when the event can happen.  A task that ended is not written again; a
read returns a state that the record had since its start. -/
def step (state : State) : Event → Option State
  | .read kind id => some (startRead kind id state)
  | .returned token version =>
    match state.flights.find? fun flight => flight.token = token with
    | some flight =>
      if flight.stored ≤ version ∧
          version ≤ (state.history flight.kind flight.id).length then
        some { endRead flight (recordAt state.history flight.kind flight.id version)
          state with
          answers := state.answers ++
            [⟨flight.kind, flight.id, flight.published, version⟩] }
      else none
    | none => none
  | .rejected token =>
    (state.flights.find? fun flight => flight.token = token).map fun flight =>
      endRead flight none state
  | .stored kind id taskState =>
    if kind = .task ∧ (state.history kind id).getLast? = some .terminal then none
    else some { state with
      history := fun other name =>
        if other = kind ∧ name = id then state.history kind id ++ [taskState]
        else state.history other name
      unpublished := state.unpublished ++
        [⟨kind, id, taskState, (state.history kind id).length + 1⟩] }
  | .published =>
    match state.unpublished with
    | [] => none
    | record :: rest =>
      (publishWrite record state.cache).map fun cache => { state with
        cache
        unpublished := rest
        published := countPublished record state.published }

end Hummin.RecordCache
