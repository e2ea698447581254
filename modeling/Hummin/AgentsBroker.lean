/-
The broker between agent sessions: connections on one socket, a name for each session, direct
delivery to a name that is connected, and an inbox file for a name that is not.  A send has a
stamp (its number and the name it is for) that the model keeps with the message, so that its
writes can be told apart; what the server does is kept as a list of events.
-/
import Mathlib.Logic.Function.Basic
import Hummin.JsonQuote
import Hummin.Machine
import Hummin.Utf8

namespace Hummin.AgentsBroker

open List

abbrev Socket := Nat

def maxText : Nat := 8000
def rateLimit : Nat := 10
def rateWindowMs : Nat := 60000
def inboxMaxEntries : Nat := 100
def inboxMaxBytes : Nat := 1024 * 1024
def replayMax : Nat := 20
def broadcastCap : Nat := 8
def knownNamesCap : Nat := 500

/-- A code unit that stands in a file name as it is: `[A-Za-z0-9._-]`. -/
def isNameUnit (unit : UInt16) : Bool :=
  let code := unit.toNat
  (65 ≤ code && code ≤ 90) || (97 ≤ code && code ≤ 122) || (48 ≤ code && code ≤ 57) ||
    code == 46 || code == 95 || code == 45

/-- The leading dots, if any, as one underscore. -/
def hideDots : JsString → JsString
  | 46 :: rest => 95 :: rest.dropWhile (· == 46)
  | name => name

def sanitizeName (name : JsString) : JsString :=
  let cleaned := hideDots (name.map fun unit => if isNameUnit unit then unit else 95)
  if cleaned.take 64 = [] then js "unnamed".toList else cleaned.take 64

theorem isNameUnit_cleaned (unit : UInt16) :
    isNameUnit (if isNameUnit unit then unit else 95) = true := by
  split
  · assumption
  · decide

variable {name : JsString}

theorem hideDots_all (hname : ∀ unit ∈ name, isNameUnit unit = true) :
    (∀ unit ∈ hideDots name, isNameUnit unit = true) ∧ (hideDots name).head? ≠ some 46 := by
  unfold hideDots
  split
  next rest =>
    refine ⟨fun unit hunit => ?_, by simp⟩
    rcases mem_cons.mp hunit with rfl | hunit
    · decide
    · exact hname unit (mem_cons_of_mem 46 ((dropWhile_sublist _).mem hunit))
  rename_i hdot
  refine ⟨hname, fun hhead => ?_⟩
  cases name with
  | nil => simp at hhead
  | cons first rest =>
    rw [head?_cons, Option.some.injEq] at hhead
    exact hdot rest (by rw [hhead])

/-- A file name: short, of name units, not empty and not hidden. -/
def IsClean (name : JsString) : Prop :=
  (∀ unit ∈ name, isNameUnit unit = true) ∧ name.head? ≠ some 46 ∧ name ≠ [] ∧ name.length ≤ 64

theorem isClean_sanitizeName (name : JsString) : IsClean (sanitizeName name) := by
  unfold sanitizeName
  dsimp only
  have hall : ∀ unit ∈ name.map (fun unit => if isNameUnit unit then unit else 95),
      isNameUnit unit = true := by
    intro unit hunit
    obtain ⟨other, -, rfl⟩ := mem_map.mp hunit
    exact isNameUnit_cleaned other
  obtain ⟨hclean, hhead⟩ := hideDots_all hall
  split
  · exact ⟨forall_units (by decide), by decide, by decide, by decide⟩
  rename_i hempty
  refine ⟨fun unit hunit => hclean unit (mem_of_mem_take hunit), ?_, hempty,
    length_take_le 64 _⟩
  rwa [head?_take, if_neg (by decide)]

theorem sanitizeName_of_isClean (hclean : IsClean name) : sanitizeName name = name := by
  obtain ⟨hall, hhead, hempty, hlength⟩ := hclean
  have hmap : name.map (fun unit => if isNameUnit unit then unit else 95) = name := by
    conv_rhs => rw [← map_id name]
    exact map_congr_left fun unit hunit => if_pos (hall unit hunit)
  have hdots : hideDots name = name := by
    unfold hideDots
    split
    · exact absurd rfl hhead
    · rfl
  unfold sanitizeName
  dsimp only
  rw [hmap, hdots, take_of_length_le hlength]
  exact if_neg hempty

/-- A name and its file name once cleaned are the same. -/
theorem sanitizeName_sanitizeName (name : JsString) :
    sanitizeName (sanitizeName name) = sanitizeName name :=
  sanitizeName_of_isClean (isClean_sanitizeName name)

/-- `basename` of a path. -/
def basename (path : JsString) : JsString :=
  ((path.reverse.dropWhile (· == 47)).takeWhile (· != 47)).reverse

structure HelloInfo where
  name : JsString
  project : JsString
deriving DecidableEq

/-- A line of an inbox file. -/
structure InboxMessage where
  sender : JsString
  project : JsString
  text : JsString
  ts : Nat
deriving DecidableEq

/-- Which send a message is: its number in the order of the sends (negative for those from
before this server), and the name it went to; `none` for a project. -/
structure Stamp where
  number : Int
  recipient : Option JsString
deriving DecidableEq

structure Letter where
  message : InboxMessage
  stamp : Stamp
deriving DecidableEq

structure SessionInfo where
  name : JsString
  project : JsString
  connectedAt : Nat
deriving DecidableEq

inductive AckStatus
  | delivered
  | queued
  | unknown
  | rateLimited
deriving DecidableEq

/-- A frame to a client; the id of a replayed `deliver` is random (`none`). -/
inductive ServerFrame
  | deliver (id : Option JsString) (letter : Letter)
  | ack (stamp : Stamp) (id : JsString) (status : AckStatus) (targets : Option Nat)
      (detail : JsString)
  | welcome (id : JsString) (sessions : List SessionInfo) (undelivered : Nat)
  | sessions (id : JsString) (sessions : List SessionInfo)
  | error (id : JsString) (message : JsString)
deriving DecidableEq

inductive ClientFrame
  | hello (id : JsString) (info : HelloInfo)
  | send (id recipient project text : JsString) (ts : Nat)
  | list (id : JsString)

/-- What the server did.  `hello`: a name was registered while `waiting` was in its inbox;
`skipped`: a write to a destroyed socket, which does nothing; `dropped`: the oldest of these
messages was shifted out. -/
inductive Event
  | hello (socket : Socket) (info : HelloInfo) (waiting : List Letter)
  | destroyed (socket : Socket)
  | closed (socket : Socket)
  | shutdown
  | sent (stamp : Stamp)
  | wrote (socket : Socket) (frame : ServerFrame)
  | skipped (socket : Socket) (frame : ServerFrame)
  | queued (stamp : Stamp)
  | dropped (messages : List Letter)
deriving DecidableEq

structure ConnState where
  info : HelloInfo
  connectedAt : Nat
  deliveryTimes : List Nat

/-- A socket is `destroyed` before its close event, `closed` after it. -/
inductive Life
  | unopened
  | isOpen
  | destroyed
  | closed
deriving DecidableEq

/-- `conns` are the keys of the map, in its order: its values are the sockets' own states. -/
structure Broker where
  closed : Bool
  life : Socket → Life
  states : Socket → ConnState
  conns : List Socket
  byName : JsString → Option Socket
  known : List JsString
  inboxes : JsString → List Letter
  sends : Nat
  trace : List Event

/-- A server over the files of its directory: the known names and the inbox of each name. -/
def newBroker (known : List JsString) (files : JsString → List InboxMessage) : Broker where
  closed := false
  life _ := .unopened
  states _ := ⟨⟨[], []⟩, 0, []⟩
  conns := []
  byName _ := none
  known := known
  inboxes name := (files name).mapIdx fun index message =>
    ⟨message, ⟨(index : Int) - (files name).length, some name⟩⟩
  sends := 0
  trace := []

namespace Broker

def log (broker : Broker) (event : Event) : Broker :=
  { broker with trace := broker.trace ++ [event] }

def write (broker : Broker) (socket : Socket) (frame : ServerFrame) : Broker :=
  if broker.life socket = .isOpen then broker.log (.wrote socket frame)
  else broker.log (.skipped socket frame)

def destroy (broker : Broker) (socket : Socket) : Broker :=
  if broker.life socket = .isOpen then
    { broker with life := Function.update broker.life socket .destroyed }.log (.destroyed socket)
  else broker

/-! ## Inboxes and known names -/

def readInbox (broker : Broker) (name : JsString) : List Letter :=
  broker.inboxes (sanitizeName name)

def writeInbox (broker : Broker) (name : JsString) (messages : List Letter) : Broker :=
  { broker with inboxes := Function.update broker.inboxes (sanitizeName name) messages }

end Broker

/-- The bytes of a message's line. -/
def lineBytes (message : InboxMessage) : Nat :=
  let field (key : String) (value : JsString) := JsonQuote.quote (js key.toList) ++ 58 :: value
  let line := 123 :: field "from" (JsonQuote.quote message.sender) ++
    44 :: field "project" (JsonQuote.quote message.project) ++
    44 :: field "text" (JsonQuote.quote message.text) ++
    44 :: field "ts" (decimal message.ts) ++ [125]
  (utf8Encode line).length + 1

def serialized (messages : List Letter) : Nat :=
  (messages.map fun letter => lineBytes letter.message).sum

/-- More than the caps of an inbox allow. -/
def overCaps (messages : List Letter) : Bool :=
  inboxMaxEntries < messages.length || inboxMaxBytes < serialized messages

/-- Shift the oldest messages out while there are too many, the last one staying: the lists
that lost their first message, and what is left. -/
def shiftOldest : List Letter → List (List Letter) × List Letter
  | oldest :: next :: rest =>
    if overCaps (oldest :: next :: rest) then
      let shifted := shiftOldest (next :: rest)
      ((oldest :: next :: rest) :: shifted.1, shifted.2)
    else ([], oldest :: next :: rest)
  | messages => ([], messages)

namespace Broker

/-- Whether the message was kept; one that is too large alone leaves the file as it was. -/
def appendInbox (broker : Broker) (name : JsString) (letter : Letter) : Bool × Broker :=
  let shifted := shiftOldest (broker.readInbox name ++ [letter])
  if shifted.2.length = 1 ∧ inboxMaxBytes < serialized shifted.2 then (false, broker)
  else
    (true, { (broker.writeInbox name shifted.2) with
      trace := broker.trace ++ .queued letter.stamp :: shifted.1.map .dropped })

def drainInbox (broker : Broker) (name : JsString) (max : Nat) : List Letter × Broker :=
  let messages := broker.readInbox name
  (messages.take max, broker.writeInbox name (messages.drop max))

def readKnownNames (broker : Broker) : List JsString :=
  broker.known.drop (broker.known.length - knownNamesCap)

def addKnownName (broker : Broker) (name : JsString) : Broker :=
  let names := broker.readKnownNames.filter (· != name) ++ [name]
  { broker with known := names.drop (names.length - knownNamesCap) }

/-! ## Frames -/

def listSessions (broker : Broker) : List SessionInfo :=
  broker.conns.map fun socket =>
    ⟨(broker.states socket).info.name, (broker.states socket).info.project,
      (broker.states socket).connectedAt⟩

def accept (broker : Broker) (socket : Socket) : Broker :=
  if broker.closed then { broker with life := Function.update broker.life socket .destroyed }
  else
    { broker with
      life := Function.update broker.life socket .isOpen
      states := Function.update broker.states socket ⟨⟨[], []⟩, 0, []⟩ }

/-- The names and maps of an accepted hello. -/
def register (broker : Broker) (socket : Socket) (info : HelloInfo) (now : Nat) : Broker :=
  { broker with
    states := Function.update broker.states socket
      { broker.states socket with info := info, connectedAt := now }
    conns := if socket ∈ broker.conns then broker.conns else broker.conns ++ [socket]
    byName := Function.update broker.byName info.name (some socket) }

/-- The messages of a hello's replay, one after another. -/
def replay (broker : Broker) (socket : Socket) (letters : List Letter) : Broker :=
  letters.foldl (fun broker letter => broker.write socket (.deliver none letter)) broker

/-- The rest of a hello whose name is free: the maps, the welcome and the replay. -/
def enter (broker : Broker) (socket : Socket) (id : JsString) (info : HelloInfo) (now : Nat) :
    Broker :=
  let waiting := broker.readInbox info.name
  let said := ((broker.register socket info now).addKnownName info.name).log
    (.hello socket info waiting)
  let welcomed := said.write socket (.welcome id said.listSessions waiting.length)
  let drained := welcomed.drainInbox info.name replayMax
  drained.2.replay socket drained.1

def handleHello (broker : Broker) (socket : Socket) (id : JsString) (raw : HelloInfo)
    (now : Nat) : Broker :=
  let info : HelloInfo := { raw with name := sanitizeName raw.name }
  if (broker.byName info.name).any fun existing => broker.life existing == .isOpen then
    (broker.write socket
      (.error id (js "Name \"".toList ++ info.name ++ js "\" is already registered".toList))).destroy
      socket
  else broker.enter socket id info now

/-- The delivery times of a recipient within the window, and whether one more is allowed. -/
def allowDelivery (broker : Broker) (socket : Socket) (now : Nat) : Bool × Broker :=
  let state := broker.states socket
  let recent := state.deliveryTimes.filter fun ts => now - ts < rateWindowMs
  let allowed : Bool := recent.length < rateLimit
  let counted : ConnState :=
    { state with deliveryTimes := if allowed then recent ++ [now] else recent }
  (allowed, { broker with states := Function.update broker.states socket counted })

/-- The closure `deliver` of a send. -/
def deliver (broker : Broker) (id : JsString) (letter : Letter) (now : Nat) (target : Socket) :
    Bool × Broker :=
  if target ∈ broker.conns then
    let allowed := broker.allowDelivery target now
    if allowed.1 then (true, allowed.2.write target (.deliver (some id) letter)) else allowed
  else (false, broker)

/-- Deliver to the sockets of a broadcast in turn, counting. -/
def broadcast (broker : Broker) (id : JsString) (letter : Letter) (now : Nat) :
    List Socket → Nat × Broker
  | [] => (0, broker)
  | target :: rest =>
    let delivered := broker.deliver id letter now target
    let others := delivered.2.broadcast id letter now rest
    (if delivered.1 then others.1 + 1 else others.1, others.2)

/-- The next send's stamp is used. -/
def stamped (broker : Broker) (stamp : Stamp) : Broker :=
  { broker with sends := broker.sends + 1 }.log (.sent stamp)

def projectPrefix : JsString := js "@project:".toList

def sendToProject (broker : Broker) (socket : Socket) (id dirName : JsString)
    (message : InboxMessage) (now : Nat) : Broker :=
  let stamp : Stamp := ⟨broker.sends, none⟩
  let targets := ((broker.conns.filter fun other =>
    other != socket && basename (broker.states other).info.project == dirName).take
      broadcastCap).filterMap fun other => broker.byName (broker.states other).info.name
  let done := (broker.stamped stamp).broadcast id ⟨message, stamp⟩ now targets
  done.2.write socket (.ack stamp id (if 0 < done.1 then .delivered else .unknown) (some done.1)
    (if 0 < done.1 then
      js "broadcast to ".toList ++ decimal done.1 ++ js " session(s)".toList
    else js "no online sessions for project \"".toList ++ dirName ++ js "\"".toList))

def sendToName (broker : Broker) (socket : Socket) (id recipient : JsString) (message : InboxMessage)
    (now : Nat) : Broker :=
  let stamp : Stamp := ⟨broker.sends, some recipient⟩
  let letter : Letter := ⟨message, stamp⟩
  let broker := broker.stamped stamp
  match (broker.byName recipient).filter fun target => broker.life target == .isOpen with
  | some target =>
    let delivered := broker.deliver id letter now target
    delivered.2.write socket
      (.ack stamp id (if delivered.1 then .delivered else .rateLimited) none recipient)
  | none =>
    if recipient ∈ broker.readKnownNames then
      let appended := broker.appendInbox recipient letter
      appended.2.write socket (.ack stamp id (if appended.1 then .queued else .unknown) none
        (if appended.1 then recipient
        else js "message too large for ".toList ++ recipient ++ js "'s inbox".toList))
    else broker.write socket (.ack stamp id .unknown none recipient)

def handleSend (broker : Broker) (socket : Socket) (id recipient project text : JsString) (ts now : Nat) :
    Broker :=
  let message : InboxMessage :=
    ⟨(broker.states socket).info.name, project, text.take maxText, ts⟩
  if projectPrefix.isPrefixOf recipient then
    broker.sendToProject socket id (recipient.drop projectPrefix.length) message now
  else broker.sendToName socket id (sanitizeName recipient) message now

/-- A frame of a connection; all but a hello are ignored before its hello. -/
def handleFrame (socket : Socket) (broker : Broker) (frame : ClientFrame × Nat) : Broker :=
  match frame with
  | (.hello id info, now) => broker.handleHello socket id info now
  | (.send id recipient project text ts, now) =>
    if (broker.states socket).connectedAt = 0 then broker
    else broker.handleSend socket id recipient project text ts now
  | (.list id, _) =>
    if (broker.states socket).connectedAt = 0 then broker
    else broker.write socket (.sessions id broker.listSessions)

/-- The close event of a destroyed socket. -/
def onClose (broker : Broker) (socket : Socket) : Broker :=
  let name := (broker.states socket).info.name
  { broker with
    life := Function.update broker.life socket .closed
    byName :=
      if (broker.states socket).connectedAt ≠ 0 ∧ broker.byName name = some socket then
        Function.update broker.byName name none
      else broker.byName
    conns := broker.conns.erase socket }.log (.closed socket)

/-- `close` of the server: every socket that was accepted is destroyed. -/
def close (broker : Broker) : Broker :=
  { broker with
    closed := true
    life := fun socket =>
      if broker.life socket = Life.isOpen then .destroyed else broker.life socket
    conns := []
    byName := fun _ => none }.log .shutdown

end Broker

/-- What reaches the server: a connection, a chunk of a connection with the frames it
completes and the time of each, the end of a connection (from its peer or by an error), the
close event that follows, and the server's own `close`. -/
inductive Input
  | connect (socket : Socket)
  | data (socket : Socket) (frames : List (ClientFrame × Nat))
  | fail (socket : Socket)
  | closeEvent (socket : Socket)
  | close

def step (broker : Broker) : Input → Option Broker
  | .connect socket =>
    if broker.life socket = .unopened then some (broker.accept socket) else none
  | .data socket frames =>
    if broker.life socket = .isOpen then some (frames.foldl (Broker.handleFrame socket) broker)
    else none
  | .fail socket =>
    if broker.life socket = .isOpen then some (broker.destroy socket) else none
  | .closeEvent socket =>
    if broker.life socket = .destroyed then some (broker.onClose socket) else none
  | .close => some broker.close

end Hummin.AgentsBroker
