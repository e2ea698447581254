/-
What the broker owes its clients, read off its events: who holds a name, who is connected,
where the message of a send went, and what must have happened before each event.
-/
import Hummin.AgentsBroker
import Hummin.EventHistory

namespace Hummin.AgentsBroker

/-- A connection said an accepted hello with a name. -/
def Named (trace : List Event) (socket : Socket) (name : JsString) : Prop :=
  ∃ info waiting, .hello socket info waiting ∈ trace ∧ info.name = name

/-- A connection was destroyed, alone or with the server. -/
def Gone (trace : List Event) (socket : Socket) : Prop :=
  .destroyed socket ∈ trace ∨ .shutdown ∈ trace

/-- A name belongs to a live connection. -/
def Holds (trace : List Event) (socket : Socket) (name : JsString) : Prop :=
  Named trace socket name ∧ ¬ Gone trace socket

/-- The session of a connection: that of its last hello, until its close event. -/
def sessionAfter (socket : Socket) (session : Option HelloInfo) : Event → Option HelloInfo
  | .hello other info _ => if other = socket then some info else session
  | .closed other => if other = socket then none else session
  | .shutdown => none
  | _ => session

def sessionOf (trace : List Event) (socket : Socket) : Option HelloInfo :=
  trace.foldl (sessionAfter socket) none

/-- A list of sessions names exactly the connected ones, each connection once. -/
def Lists (trace : List Event) (sessions : List SessionInfo) : Prop :=
  ∃ sockets : List Socket, sockets.Nodup ∧
    (sockets.map fun socket => sessionOf trace socket) =
      sessions.map (fun session => some ⟨session.name, session.project⟩) ∧
    ∀ socket, sessionOf trace socket ≠ none → socket ∈ sockets

def Stamp.forName (name : JsString) (stamp : Stamp) : Option Stamp :=
  if stamp.recipient = some name then some stamp else none

/-- The sends to a name whose message was written, in the order of the writes. -/
def written (trace : List Event) (name : JsString) : List Stamp :=
  trace.filterMap fun
    | .wrote _ (.deliver _ letter) => letter.stamp.forName name
    | _ => none

/-- The sends to a name whose message was to be written to a destroyed connection. -/
def unwritten (trace : List Event) (name : JsString) : List Stamp :=
  trace.filterMap fun
    | .skipped _ (.deliver _ letter) => letter.stamp.forName name
    | _ => none

/-- The sends to a name whose message was shifted out of its inbox. -/
def dropped (trace : List Event) (name : JsString) : List Stamp :=
  trace.filterMap fun
    | .dropped (oldest :: _) => oldest.stamp.forName name
    | _ => none

/-- `stamp` was left in the inbox of `name` by the replay at the hello of a connection. -/
def LeftWaiting (trace : List Event) (socket : Socket) (name : JsString) (stamp : Stamp) : Prop :=
  ∃ info waiting, .hello socket info waiting ∈ trace ∧ info.name = name ∧
    ∃ letter ∈ waiting.drop replayMax, letter.stamp = stamp

/-- No later send to `name` was written before `stamp`, but those delivered directly to a
connection whose hello had left `stamp` waiting. -/
def NotOvertaken (trace : List Event) (name : JsString) (stamp : Stamp) : Prop :=
  Along (fun past event => ∀ socket id letter, event = .wrote socket (.deliver id letter) →
    letter.stamp.recipient = some name → stamp.number < letter.stamp.number →
      LeftWaiting past socket name stamp ∧ past.getLast? = some (.sent letter.stamp)) trace

/-- What happened before a frame was written to a connection. -/
def FrameFits (past : List Event) (socket : Socket) : ServerFrame → Prop
  | .deliver id letter => ∀ name, letter.stamp.recipient = some name →
      Holds past socket name ∧ NotOvertaken past name letter.stamp ∧
      match id with
      | some _ => past.getLast? = some (.sent letter.stamp)
      | none => ∃ info waiting, .hello socket info waiting ∈ past ∧ info.name = name ∧
          letter ∈ waiting.take replayMax
  | .ack stamp _ .delivered _ _ => ∀ name, stamp.recipient = some name →
      ∃ before target id letter, past = before ++ [.wrote target (.deliver id letter)] ∧
        letter.stamp = stamp ∧ Holds before target name
  | .welcome _ sessions _ => Lists past sessions
  | .sessions _ sessions => Lists past sessions
  | _ => True

def isSent : Event → Bool
  | .sent _ => true
  | _ => false

/-- What happened before an event: sends are numbered in order, what waits at a hello was
queued, and only the oldest of too many messages is dropped. -/
def EventFits (past : List Event) : Event → Prop
  | .wrote socket frame => FrameFits past socket frame
  | .sent stamp => stamp.number = past.countP isSent
  | .hello _ info waiting => ∀ letter ∈ waiting,
      letter.stamp.recipient = some info.name ∧
      (0 ≤ letter.stamp.number → .queued letter.stamp ∈ past)
  | .dropped messages => overCaps messages = true ∧ 1 < messages.length
  | _ => True

/-- The sends to a name whose message is somewhere. -/
def placed (trace : List Event) (waiting : JsString → List Letter) (name : JsString) :
    List Stamp :=
  written trace name ++ (unwritten trace name ++
    (dropped trace name ++ (waiting name).map Letter.stamp))

/-- What the broker promises after any run: one live connection for a name, a list of exactly
the connected sessions, the message of a send to a name in one place, a queued one in some
place, and every event after what must come before it. -/
structure Delivers (broker : Broker) : Prop where
  oneHolder : ∀ name socket other, Holds broker.trace socket name →
    Holds broker.trace other name → socket = other
  listed : Lists broker.trace broker.listSessions
  once : ∀ name, (placed broker.trace broker.inboxes name).Nodup
  kept : ∀ socket stamp id targets detail name,
    .wrote socket (.ack stamp id .queued targets detail) ∈ broker.trace →
      stamp.recipient = some name → stamp ∈ placed broker.trace broker.inboxes name
  fits : Along EventFits broker.trace

end Hummin.AgentsBroker
