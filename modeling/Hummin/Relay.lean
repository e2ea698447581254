/-
A relaying host: the provider side of one downstream origin, its holds served here or held
again on the links of their paths, and what upstream links send for them.  Numbers stand for
links, paths, holds and calls; `bound` and `state` messages carry a number of their own, so
that an ack can be told from another.
-/
import Mathlib.Logic.Function.Basic
import Hummin.JsMap
import Hummin.Machine

namespace Hummin.Relay

/-- Who sent a `bound` or `state` message in flight: this host, or an upstream link. -/
inductive Sender
  | here
  | link (link : Nat)
deriving DecidableEq, Repr

/-- An entry of a `bound` or `state` message: its hold, and parts that travel unread. -/
structure WindowEntry where
  hold : Nat
  parts : Nat
deriving DecidableEq, Repr

/-- What goes downstream; a reply carries the serial number of its relayed call. -/
inductive DownMessage
  | window (bound : Bool) (sender : Sender) (message : Nat) (holds : List WindowEntry)
  | reply (call : Nat) (result : Bool) (serial : Option Nat)
  | notice (hold : Nat) (failed : Bool)
  | gone (hold : Nat)
deriving DecidableEq, Repr

/-- What goes upstream on a link. -/
inductive UpMessage
  | hold (origin hold : Nat)
  | release (origin hold : Nat)
  | call (origin call hold : Nat)
  | abort (origin call : Nat)
  | ack (origin message : Nat)
  | closed (origin : Nat)
deriving DecidableEq, Repr

/-- What an upstream link sends for an origin. -/
inductive FromUpstream
  | window (bound : Bool) (message : Nat) (holds : List WindowEntry)
  | reply (call : Nat) (result : Bool)
  | notice (hold : Nat) (failed : Bool)
  | gone (hold : Nat)
deriving DecidableEq, Repr

/-- A hold of the origin: not placed yet, served here, or relayed over a path, on its link
while it has one. -/
inductive Entry
  | pending
  | served
  | relayed (path : Nat) (upstream : Option Nat)
deriving DecidableEq, Repr

/-- A call being handled; relayed ones are numbered. -/
inductive Running
  | served (hold : Nat)
  | relayed (hold serial : Nat)
deriving DecidableEq, Repr

structure Path where
  link : Option Nat
  holders : List Nat

/-- `limit`: this side's N; `child`: the downstream link is a child's. -/
structure Config where
  limit : Nat
  child : Bool

/-- The side of the origin while there is one (`isLive`), the host's paths and links, and
what was seen: `arrived` are the `bound` and `state` messages of links it relays to, `acked`
those of `windows` that downstream acknowledged, `lost` those that closed with the side,
`ended` the relayed calls answered (or dropped). -/
structure State where
  isLive : Bool
  downOpen : Bool
  entries : List (Nat × Entry)
  calls : List (Nat × Running)
  sent : List (Sender × Nat)
  inFlight : Nat
  relay : Option Nat
  links : List Nat
  nextOrigin : Nat
  paths : Nat → Path
  openLinks : List Nat
  nextLink : Nat
  down : List DownMessage
  up : List (Nat × UpMessage)
  windows : List (Sender × Nat)
  acked : List (Sender × Nat)
  arrived : List (Nat × Nat × Nat)
  lost : List (Nat × Nat × Nat)
  nextSerial : Nat
  ended : List (Nat × Bool)

def start : State where
  isLive := false
  downOpen := true
  entries := []
  calls := []
  sent := []
  inFlight := 0
  relay := none
  links := []
  nextOrigin := 1
  paths := fun _ => ⟨none, []⟩
  openLinks := []
  nextLink := 0
  down := []
  up := []
  windows := []
  acked := []
  arrived := []
  lost := []
  nextSerial := 0
  ended := []

def Running.hold : Running → Nat
  | .served hold => hold
  | .relayed hold _ => hold

def Running.serial : Running → Option Nat
  | .served _ => none
  | .relayed _ serial => some serial

/-- At most this many own messages unacknowledged. -/
def window : Nat := 2

namespace State

/-- `send`: with this origin, on the downstream link. -/
def send (state : State) (message : DownMessage) : State :=
  { state with down := state.down ++ [message] }

/-- A message on an upstream link; a closed one drops it. -/
def sendUp (state : State) (link : Nat) (message : UpMessage) : State :=
  if link ∈ state.openLinks then { state with up := state.up ++ [(link, message)] } else state

/-- A running call ends, answered or dropped. -/
def endCall (state : State) (answered : Bool) (running : Running) : State :=
  match running.serial with
  | none => state
  | some serial => { state with ended := state.ended ++ [(serial, answered)] }

def setPath (state : State) (path : Nat) (value : Path) : State :=
  { state with paths := Function.update state.paths path value }

/-- `Path.detach`. -/
def detach (state : State) (path hold : Nat) : State :=
  state.setPath path ⟨(state.paths path).link, (state.paths path).holders.erase hold⟩

/-- `drop` of a relayed hold. -/
def dropHold (state : State) (hold : Nat) : Entry → State
  | .relayed path _ => state.detach path hold
  | _ => state

/-- The messages in flight that came from upstream links. -/
def pendingOf (origin : Nat) (sent : List (Sender × Nat)) : List (Nat × Nat × Nat) :=
  sent.filterMap fun entry => match entry.1 with
    | .here => none
    | .link link => some (link, origin, entry.2)

/-- `closed`: holds and calls are dropped, the upstream links are told. -/
def closed (state : State) : State :=
  let dropped := state.entries.foldl (fun state entry => state.dropHold entry.1 entry.2) state
  let ended := state.calls.foldl (fun state call => state.endCall false call.2) dropped
  let told := match state.relay with
    | none => ended
    | some origin => state.links.foldl (fun state link => state.sendUp link (.closed origin)) ended
  { told with
    isLive := false
    entries := []
    calls := []
    sent := []
    inFlight := 0
    relay := none
    links := []
    windows := []
    acked := []
    lost := state.lost ++ (match state.relay with
      | none => []
      | some origin => pendingOf origin state.sent) }

/-- `#settle`: a side that holds nothing goes. -/
def settle (state : State) : State :=
  if state.isLive ∧ state.entries = [] ∧ state.calls = [] ∧ state.sent = [] then state.closed
  else state

/-- `forget`: the hold and every call on it. -/
def forget (state : State) (hold : Nat) : State :=
  let dropped := (state.calls.filter fun call => call.2.hold = hold).foldl
    (fun state call => state.endCall false call.2) state
  { dropped with
    entries := PropertyList.erase hold state.entries
    calls := state.calls.filter fun call => call.2.hold ≠ hold }.settle

/-- `reply`: nothing is sent for a call already gone. -/
def reply (state : State) (call : Nat) (result : Bool) : State :=
  match PropertyList.get call state.calls with
  | none => state
  | some running =>
    ({ (state.endCall true running) with calls := PropertyList.erase call state.calls }.send
      (.reply call result running.serial)).settle

/-- `relayTo`: the origin's number upstream, with `link` as one it relays to. -/
def relayTo (state : State) (link : Nat) : State × Nat :=
  match state.relay with
  | none => ({ state with relay := some state.nextOrigin, nextOrigin := state.nextOrigin + 1,
                          links := [link] }, state.nextOrigin)
  | some origin => ({ state with links := if link ∈ state.links then state.links
                                  else state.links ++ [link] }, origin)

/-- `RelayedHold.attach`. -/
def attach (state : State) (link hold : Nat) : State :=
  match PropertyList.get hold state.entries with
  | some (.relayed path _) =>
    let relaying := state.relayTo link
    { relaying.1 with
      entries := JsMap.set hold (Entry.relayed path (some link)) state.entries }.sendUp link
      (.hold relaying.2 hold)
  | _ => state

/-- `heldOn`, and `#relayedHold`: the hold is relayed over the link. -/
def relayedHold (state : State) (link hold : Nat) : Bool :=
  match PropertyList.get hold state.entries with
  | some (.relayed _ upstream) => decide (upstream = some link)
  | _ => false

/-- The loop of `#relayedOver`: the entries so far, and a copy once one was not relayed. -/
def relayedOverFrom (relayed : Nat → Bool) (entries : List WindowEntry) (kept : Option (List WindowEntry)) :
    List WindowEntry → List WindowEntry
  | [] => kept.getD entries
  | entry :: rest =>
    match kept with
    | some kept => relayedOverFrom relayed (entries ++ [entry])
        (some (if relayed entry.hold then kept ++ [entry] else kept)) rest
    | none => relayedOverFrom relayed (entries ++ [entry])
        (if relayed entry.hold then none else some entries) rest

def relayedOver (state : State) (link : Nat) (holds : List WindowEntry) : List WindowEntry :=
  relayedOverFrom (state.relayedHold link) [] none holds

/-- `forward` of a message for the relay's own origin. -/
def forwardFrom (state : State) (link origin : Nat) : FromUpstream → State
  | .window bound message holds =>
    let kept := state.relayedOver link holds
    let noted := { state with arrived := state.arrived ++ [(link, origin, message)] }
    if kept = [] then noted.sendUp link (.ack origin message)
    else
      { noted with
        sent := state.sent ++ [(Sender.link link, message)]
        windows := state.windows ++ [(Sender.link link, message)] }.send
          (.window bound (.link link) message kept)
  | .reply call result =>
    match PropertyList.get call state.calls with
    | some (.relayed hold _) =>
      if state.relayedHold link hold then state.reply call result else state
    | _ => state
  | .gone hold =>
    match PropertyList.get hold state.entries with
    | some (.relayed path upstream) =>
      if upstream = some link then ((state.detach path hold).forget hold).send (.gone hold) else state
    | _ => state
  | .notice hold failed =>
    if state.relayedHold link hold then state.send (.notice hold failed) else state

/-- A message with an origin arrives on an upstream link. -/
def forward (state : State) (link origin : Nat) (message : FromUpstream) : State :=
  if state.relay = some origin ∧ link ∈ state.links then state.forwardFrom link origin message
  else state

/-- `RelayedHold.dropped`, with `upstreamDropped`. -/
def dropped (state : State) (hold : Nat) : State :=
  match PropertyList.get hold state.entries with
  | some (.relayed path (some _)) =>
    let unheld := { state with entries := JsMap.set hold (Entry.relayed path none) state.entries }
    (((state.calls.filter fun call => call.2.hold = hold).map Prod.fst).foldl
      (fun state call => state.reply call false) unheld).send (.notice hold false)
  | _ => state

/-- The downstream link closes. -/
def closeDown (state : State) : State :=
  { (if state.isLive then state.closed else state) with downOpen := false }

/-- `#call`: relayed, or served when the hold admits it.  A call that is a protocol error
changes nothing here; the link closes. -/
def call (config : Config) (state : State) (id hold : Nat) (deflated fits admitted : Bool) : State :=
  if (PropertyList.get id state.calls).isSome then state
  else match PropertyList.get hold state.entries with
    | none => state
    | some entry =>
      if state.calls.length ≥ config.limit then state
      else if deflated && config.child then state
      else match entry with
        | .relayed _ upstream =>
          if ¬ fits then state.send (.reply id false none)
          else
            let running := { state with
              calls := state.calls ++ [(id, Running.relayed hold state.nextSerial)]
              nextSerial := state.nextSerial + 1 }
            match upstream, state.relay with
            | some link, some origin => running.sendUp link (.call origin id hold)
            | _, _ => running.reply id false
        | .served =>
          if admitted then { state with calls := state.calls ++ [(id, Running.served hold)] }
          else state.send (.reply id false none)
        | .pending => state.send (.reply id false none)

/-- `#abort`. -/
def abort (state : State) (id : Nat) : State :=
  match PropertyList.get id state.calls with
  | none => state.settle
  | some running =>
    let ended := { (state.endCall false running) with calls := PropertyList.erase id state.calls }
    let told := match PropertyList.get running.hold state.entries, state.relay with
      | some (.relayed _ (some link)), some origin => ended.sendUp link (.abort origin id)
      | _, _ => ended
    told.settle

/-- `#release`: the relayed hold is released upstream. -/
def release (state : State) (hold : Nat) : State :=
  match PropertyList.get hold state.entries with
  | none => state.settle
  | some entry =>
    let forgotten := (state.forget hold).dropHold hold entry
    let told := match entry, state.relay with
      | .relayed _ (some link), some origin => forgotten.sendUp link (.release origin hold)
      | _, _ => forgotten
    told.settle

/-- `#ack`: the oldest message in flight; a relayed one is acknowledged to its link. -/
def ack (state : State) : State :=
  match state.sent with
  | [] => state.settle
  | (sender, message) :: rest =>
    let popped := { state with sent := rest, acked := state.acked ++ [(sender, message)] }
    match sender, state.relay with
    | .link link, some origin => (popped.sendUp link (.ack origin message)).settle
    | .here, _ => { popped with inFlight := state.inFlight - 1 }.settle
    | _, _ => popped.settle

end State

/-- What reaches the host. -/
inductive Input
  | hold (hold : Nat)
  /-- A pending hold is placed: served here, or relayed over a path. -/
  | serve (hold : Nat)
  | relay (hold path : Nat)
  /-- A served hold left its object: its calls are rejected, and it waits. -/
  | unserve (hold : Nat)
  | call (id hold : Nat) (deflated fits admitted : Bool)
  | abort (id : Nat)
  | release (hold : Nat)
  | ack
  | closeDown
  /-- This host's own `bound` or `state` message. -/
  | own (bound : Bool) (message : Nat) (holds : List WindowEntry)
  /-- A served call ends, a served hold ends. -/
  | answer (id : Nat) (result : Bool)
  | endHold (hold : Nat)
  | upstream (link origin : Nat) (message : FromUpstream)
  | connect (path : Nat)
  | disconnect (path : Nat)
  /-- A path's address cannot be reached for now. -/
  | unreachable (path : Nat)
  /-- A revocation ends a relayed hold that waits for its path's link. -/
  | revoke (hold : Nat)

def step (config : Config) (state : State) : Input → Option State
  | .hold hold =>
    if ¬ state.downOpen then none
    else if (PropertyList.get hold state.entries).isSome then some state
    else some { state with isLive := true, entries := state.entries ++ [(hold, .pending)] }
  | .serve hold =>
    if PropertyList.get hold state.entries = some .pending then
      some { state with entries := JsMap.set hold .served state.entries }
    else none
  | .relay hold path =>
    if PropertyList.get hold state.entries = some .pending then
      let held := { state with
        entries := JsMap.set hold (Entry.relayed path none) state.entries }.setPath path
          ⟨(state.paths path).link, (state.paths path).holders ++ [hold]⟩
      match (state.paths path).link with
      | none => some held
      | some link => some (held.attach link hold)
    else none
  | .unserve hold =>
    if PropertyList.get hold state.entries = some .served then
      let rejected := ((state.calls.filter fun call => call.2.hold = hold).map Prod.fst).foldl
        (fun state call => state.reply call false) state
      some ({ rejected with entries := JsMap.set hold .pending rejected.entries }.send
        (.notice hold true))
    else none
  | .call id hold deflated fits admitted =>
    if state.downOpen then some (state.call config id hold deflated fits admitted) else none
  | .abort id => if state.downOpen then some (state.abort id) else none
  | .release hold => if state.downOpen then some (state.release hold) else none
  | .ack => if state.downOpen then some state.ack else none
  | .closeDown => if state.downOpen then some state.closeDown else none
  | .own bound message holds =>
    if state.inFlight < window ∧ holds ≠ [] ∧
        (holds.all fun entry => PropertyList.get entry.hold state.entries = some .served) then
      some ({ state with
        inFlight := state.inFlight + 1
        sent := state.sent ++ [(Sender.here, message)]
        windows := state.windows ++ [(Sender.here, message)] }.send (.window bound .here message holds))
    else none
  | .answer id result =>
    match PropertyList.get id state.calls with
    | some (.served _) => some (state.reply id result)
    | _ => none
  | .endHold hold =>
    match PropertyList.get hold state.entries with
    | some (.relayed _ _) => none
    | some _ => some ((state.forget hold).send (.gone hold))
    | none => none
  | .upstream link origin message =>
    if link ∈ state.openLinks then some (state.forward link origin message) else none
  | .connect path =>
    match (state.paths path).link with
    | some _ => none
    | none =>
      let linked := { state with
        nextLink := state.nextLink + 1
        openLinks := state.openLinks ++ [state.nextLink] }.setPath path
          ⟨some state.nextLink, (state.paths path).holders⟩
      some ((state.paths path).holders.foldl (fun held hold => held.attach state.nextLink hold) linked)
  | .disconnect path =>
    match (state.paths path).link with
    | none => none
    | some link =>
      let unlinked := { state with
        openLinks := state.openLinks.erase link
        links := state.links.erase link }.setPath path ⟨none, (state.paths path).holders⟩
      some ((state.paths path).holders.foldl State.dropped unlinked)
  | .unreachable path =>
    some ((state.paths path).holders.foldl (fun state hold => state.send (.notice hold true)) state)
  | .revoke hold =>
    match PropertyList.get hold state.entries with
    | some (.relayed path none) =>
      some (((state.detach path hold).forget hold).send (.gone hold))
    | _ => none

end Hummin.Relay
