/-
Calls over a link: the consumer side with its call window, the provider side of its origin,
and the messages between them.  Each side's outbox is what it sent and the other side has
not handled yet, in order.
-/
import Hummin.JsMap
import Hummin.Machine

namespace Hummin.Remote

/-- The arguments of a call as a part: deflated or not, and within the provider's limits. -/
structure Args where
  deflated : Bool
  fits : Bool
deriving DecidableEq, Repr

/-- A call through the consumer side; `key` tells the submissions apart, in order. -/
structure OutgoingCall where
  key : Nat
  hold : Nat
  method : Nat
  args : Option Args
deriving DecidableEq, Repr

inductive ToProvider
  | hold (hold : Nat)
  | release (hold : Nat)
  | call (call hold method : Nat) (args : Option Args)
  | abort (call : Nat)
deriving DecidableEq, Repr

/-- Of a `bound` entry only the number of methods of its variant matters to calls. -/
inductive ToConsumer
  | bound (hold methods : Nat)
  | loading (hold : Nat)
  | failed (hold : Nat)
  | result (call : Nat)
  | error (call : Nat)
  | gone (hold : Nat)
deriving DecidableEq, Repr

/-- How a call's promise settled. -/
inductive Outcome
  | result
  | error
  | cancelled
  | released
  | gone
  | rebinding
  | failed
  | closed
deriving DecidableEq, Repr

/-- What both ends know of the link: the provider's N, and whether it is the consumer's parent. -/
structure Config where
  calls : Nat
  parent : Bool

/-! ### The consumer side -/

/-- `entries`: the holds, each with the methods of the bound variant while it is live;
`sent` and `settled` are what was seen outside, in order. -/
structure ConsumerSide where
  limit : Nat
  inFlight : Nat
  waiting : List OutgoingCall
  calls : List (Nat × OutgoingCall)
  entries : List (Nat × Option Nat)
  nextHold : Nat
  nextCall : Nat
  nextKey : Nat
  isOpen : Bool
  outbox : List ToProvider
  sent : List Nat
  settled : List (Nat × Outcome)

namespace ConsumerSide

def start : ConsumerSide where
  limit := 0
  inFlight := 0
  waiting := []
  calls := []
  entries := []
  nextHold := 0
  nextCall := 0
  nextKey := 0
  isOpen := true
  outbox := []
  sent := []
  settled := []

def post (side : ConsumerSide) (message : ToProvider) : ConsumerSide :=
  { side with outbox := side.outbox ++ [message] }

/-- The promises of `calls` settle. -/
def settle (side : ConsumerSide) (calls : List OutgoingCall) (outcome : Outcome) : ConsumerSide :=
  { side with settled := side.settled ++ calls.map fun call => (call.key, outcome) }

/-- `#send`: a call that got its slot, with the next id. -/
def send (side : ConsumerSide) (call : OutgoingCall) : ConsumerSide :=
  { side with
    nextCall := side.nextCall + 1
    calls := side.calls ++ [(side.nextCall, call)]
    outbox := side.outbox ++ [.call side.nextCall call.hold call.method call.args]
    sent := side.sent ++ [call.key] }

/-- The loop of `#drain` over the waiting calls. -/
@[grind =]
def drainFrom (side : ConsumerSide) : List OutgoingCall → ConsumerSide
  | [] => { side with waiting := [] }
  | call :: rest =>
    if side.inFlight ≥ side.limit then { side with waiting := call :: rest }
    else drainFrom ({ side with inFlight := side.inFlight + 1 }.send call) rest

def drain (side : ConsumerSide) : ConsumerSide :=
  side.drainFrom side.waiting

/-- `CallWindow.freed`. -/
def freed (side : ConsumerSide) : ConsumerSide :=
  { side with inFlight := side.inFlight - 1 }.drain

/-- `CallWindow.submit`. -/
def submit (side : ConsumerSide) (call : OutgoingCall) : ConsumerSide :=
  if side.waiting.isEmpty ∧ side.inFlight < side.limit then
    { side with inFlight := side.inFlight + 1 }.send call
  else { side with waiting := side.waiting ++ [call] }

/-- `opened`: the peer's `hello` arrived. -/
def opened (side : ConsumerSide) (calls : Nat) : ConsumerSide :=
  { side with limit := calls }.drain

/-- `attach`: holds on this link under a new id. -/
def attach (side : ConsumerSide) : ConsumerSide :=
  { side with
    nextHold := side.nextHold + 1
    entries := side.entries ++ [(side.nextHold, none)] }.post (.hold side.nextHold)

/-- `call`: up a parent link arguments travel uncompressed. -/
def call (config : Config) (side : ConsumerSide) (hold method : Nat) (args : Option Args) :
    ConsumerSide :=
  let args := if config.parent then args.map fun part => { part with deflated := false } else args
  { side with nextKey := side.nextKey + 1 }.submit ⟨side.nextKey, hold, method, args⟩

/-- The caller's cancellation; nothing is left of a call that settled. -/
def cancel (side : ConsumerSide) (key : Nat) : ConsumerSide :=
  match side.waiting.find? fun call => call.key = key with
  | some call =>
    { side with waiting := side.waiting.filter fun other => other.key ≠ key }.settle [call] .cancelled
  | none =>
    match side.calls.find? fun entry => entry.2.key = key with
    | none => side
    | some (id, call) =>
      ({ side with calls := PropertyList.erase id side.calls }.post (.abort id)).freed.settle
        [call] .cancelled

/-- One round of the loop of `#failCalls`. -/
def dropCall (side : ConsumerSide) (id : Nat) : ConsumerSide :=
  { side with calls := PropertyList.erase id side.calls }.freed

/-- The loop of `#failCalls`: the calls it sends on freed slots are of other holds, so it
ends the calls that were there. -/
def dropCalls (side : ConsumerSide) (ids : List Nat) : ConsumerSide :=
  ids.foldl dropCall side

/-- `#failCalls`: the waiting ones first, so a freed slot does not send one of them. -/
def failCalls (side : ConsumerSide) (hold : Nat) (outcome : Outcome) : ConsumerSide :=
  let failed := side.waiting.filter fun call => call.hold = hold
  let inFlight := side.calls.filter fun entry => entry.2.hold = hold
  ({ side with waiting := side.waiting.filter fun call => call.hold ≠ hold }.dropCalls
    (inFlight.map Prod.fst)).settle (failed ++ inFlight.map Prod.snd) outcome

def forget (side : ConsumerSide) (hold : Nat) (outcome : Outcome) : ConsumerSide :=
  { side with entries := PropertyList.erase hold side.entries }.failCalls hold outcome

def release (side : ConsumerSide) (hold : Nat) : ConsumerSide :=
  (side.post (.release hold)).forget hold .released

/-- `closed`: the tables are dropped. -/
def closed (side : ConsumerSide) : ConsumerSide :=
  { side with waiting := [], calls := [], entries := [], isOpen := false }.settle
    (side.calls.map Prod.snd ++ side.waiting) .closed

/-- The waiting calls of a hold that rebinds or failed; its holder is not live. -/
def unbound (side : ConsumerSide) (hold : Nat) (outcome : Outcome) : ConsumerSide :=
  if (PropertyList.get hold side.entries).isNone then side
  else
    { side with
      waiting := side.waiting.filter fun call => call.hold ≠ hold
      entries := JsMap.set hold none side.entries }.settle
      (side.waiting.filter fun call => call.hold = hold) outcome

/-- `#reply`. -/
def reply (side : ConsumerSide) (id : Nat) (outcome : Outcome) : ConsumerSide :=
  match PropertyList.get id side.calls with
  | none => side
  | some call => (side.dropCall id).settle [call] outcome

def message (side : ConsumerSide) : ToConsumer → ConsumerSide
  | .bound hold methods =>
    if (PropertyList.get hold side.entries).isNone then side
    else { side with entries := JsMap.set hold (some methods) side.entries }
  | .loading hold => side.unbound hold .rebinding
  | .failed hold => side.unbound hold .failed
  | .result id => side.reply id .result
  | .error id => side.reply id .error
  | .gone hold =>
    if (PropertyList.get hold side.entries).isNone then side else side.forget hold .gone

end ConsumerSide

/-! ### The provider side -/

/-- Where a hold stands for its calls: not callable, bound to a variant's methods, binding
afresh with the methods it was bound with, or relayed while its path has a link or not. -/
inductive HoldState
  | pending
  | bound (methods : Nat)
  | binding (previous : Option Nat)
  | relayed (upstream : Bool)
deriving DecidableEq, Repr

inductive ProtocolError
  /-- `hold ${id}: the id is in use` -/
  | holdInUse
  /-- `call ${id}: the id is in use` -/
  | callInUse
  /-- `call ${id}: more than ${limit} calls` -/
  | tooManyCalls
  /-- `call ${id}: compressed arguments from a child` -/
  | compressedArgs
  /-- `hold ${id}: no method ${index}` -/
  | noMethod
deriving DecidableEq, Repr

/-- `calls`: each call being handled with its hold. -/
structure ProviderSide where
  holds : List (Nat × HoldState)
  calls : List (Nat × Nat)
  isOpen : Bool
  outbox : List ToConsumer
  failure : Option ProtocolError

namespace ProviderSide

def start : ProviderSide where
  holds := []
  calls := []
  isOpen := true
  outbox := []
  failure := none

def post (side : ProviderSide) (message : ToConsumer) : ProviderSide :=
  { side with outbox := side.outbox ++ [message] }

/-- `closed`. -/
def closed (side : ProviderSide) : ProviderSide :=
  { side with holds := [], calls := [], isOpen := false }

/-- `reply`: nothing is sent for a call already gone. -/
def reply (side : ProviderSide) (id : Nat) (message : ToConsumer) : ProviderSide :=
  if (PropertyList.get id side.calls).isNone then side
  else { side with calls := PropertyList.erase id side.calls }.post message

/-- `forget`: the hold and every call on it. -/
def forget (side : ProviderSide) (hold : Nat) : ProviderSide :=
  { side with
    holds := PropertyList.erase hold side.holds
    calls := side.calls.filter fun call => call.2 ≠ hold }

/-- The loop of `unbound` and `upstreamDropped` over the calls of a hold. -/
def rejectCalls (side : ProviderSide) (hold : Nat) : ProviderSide :=
  ((side.calls.filter fun call => call.2 = hold).map Prod.fst).foldl
    (fun side id => side.reply id (.error id)) side

/-- The methods a call on a served hold is looked up in, when it is callable. -/
def callable : HoldState → Option Nat
  | .bound methods => some methods
  | .binding previous => previous
  | _ => none

/-- `#call`. -/
def call (config : Config) (side : ProviderSide) (call hold method : Nat) (args : Option Args) :
    Except ProtocolError ProviderSide :=
  if (PropertyList.get call side.calls).isSome then .error .callInUse
  else match PropertyList.get hold side.holds with
    | none => .ok side
    | some state =>
      let deflated := args.any fun part => part.deflated
      let oversized := args.any fun part => !part.fits
      let running := { side with calls := side.calls ++ [(call, hold)] }
      if side.calls.length ≥ config.calls then .error .tooManyCalls
      else if deflated && config.parent then .error .compressedArgs
      else match state with
        | .relayed upstream =>
          if oversized then .ok (side.post (.error call))
          else if upstream then .ok running
          else .ok (running.reply call (.error call))
        | _ =>
          match callable state with
          | none => .ok (side.post (.error call))
          | some methods =>
            if method ≥ methods then .error .noMethod
            else if oversized then .ok (side.post (.error call))
            else .ok running

/-- A message of the origin. -/
def message (config : Config) (side : ProviderSide) : ToProvider → Except ProtocolError ProviderSide
  | .hold hold =>
    if (PropertyList.get hold side.holds).isSome then .error .holdInUse
    else .ok { side with holds := side.holds ++ [(hold, .pending)] }
  | .release hold =>
    .ok (if (PropertyList.get hold side.holds).isNone then side else side.forget hold)
  | .call call hold method args => side.call config call hold method args
  | .abort call => .ok { side with calls := PropertyList.erase call side.calls }

/-- What happens to a hold on the provider's host. -/
inductive HoldEvent
  /-- Its object is live: its `bound` waits for a slot. -/
  | binding
  /-- Its `bound` is sent, or forwarded from upstream. -/
  | bound (methods : Nat)
  /-- A swap of its object went live: a fresh `bound` waits for a slot. -/
  | rebind
  /-- Its object left `live`, or left it. -/
  | unbound (failed : Bool)
  /-- A pending hold's failure or next attempt, or a notice from upstream. -/
  | notice (failed : Bool)
  /-- It is relayed, its path having a link or not. -/
  | relayed (upstream : Bool)
  | upstreamDropped
  /-- Its object ended, it was revoked, or `gone` came from upstream. -/
  | ended
deriving DecidableEq, Repr

def notice (hold : Nat) (failed : Bool) : ToConsumer :=
  if failed then .failed hold else .loading hold

def setHold (side : ProviderSide) (hold : Nat) (state : HoldState) : ProviderSide :=
  { side with holds := JsMap.set hold state side.holds }

def holdEvent (side : ProviderSide) (hold : Nat) (event : HoldEvent) : Option ProviderSide :=
  match PropertyList.get hold side.holds, event with
  | some .pending, .binding => some (side.setHold hold (.binding none))
  | some (.binding _), .bound methods =>
    some ((side.setHold hold (.bound methods)).post (.bound hold methods))
  | some (.relayed true), .bound methods => some (side.post (.bound hold methods))
  | some (.bound methods), .rebind => some (side.setHold hold (.binding (some methods)))
  | some (.bound _), .unbound failed =>
    some (((side.rejectCalls hold).setHold hold .pending).post (notice hold failed))
  | some (.binding _), .unbound failed =>
    some (((side.rejectCalls hold).setHold hold .pending).post (notice hold failed))
  | some .pending, .notice failed => some (side.post (notice hold failed))
  | some (.relayed _), .notice failed => some (side.post (notice hold failed))
  | some .pending, .relayed upstream => some (side.setHold hold (.relayed upstream))
  | some (.relayed false), .relayed true => some (side.setHold hold (.relayed true))
  | some (.relayed true), .upstreamDropped =>
    some (((side.rejectCalls hold).setHold hold (.relayed false)).post (.loading hold))
  | some _, .ended => some ((side.forget hold).post (.gone hold))
  | _, _ => none

end ProviderSide

/-! ### The link -/

structure Ends where
  consumer : ConsumerSide
  provider : ProviderSide

def Ends.start : Ends := ⟨.start, .start⟩

inductive Input
  | attach
  /-- A reference calls a method of its bound variant. -/
  | call (hold method : Nat) (args : Option Args)
  | cancel (key : Nat)
  | release (hold : Nat)
  /-- The peer's `hello` arrives. -/
  | hello
  /-- The provider's oldest message arrives. -/
  | receive
  /-- The consumer's oldest message arrives. -/
  | handle
  /-- A handler, or the upstream of a relayed call, answers. -/
  | answer (call : Nat) (result : Bool)
  | hold (hold : Nat) (event : ProviderSide.HoldEvent)
  | closeConsumer
  | closeProvider

/-- One step; a message that is a protocol error closes the provider's end. -/
def step (config : Config) (ends : Ends) : Input → Option Ends
  | .attach => if ends.consumer.isOpen then some { ends with consumer := ends.consumer.attach } else none
  | .call hold method args =>
    match PropertyList.get hold ends.consumer.entries with
    | some (some methods) =>
      if method < methods then
        some { ends with consumer := ends.consumer.call config hold method args }
      else none
    | _ => none
  | .cancel key => some { ends with consumer := ends.consumer.cancel key }
  | .release hold =>
    if (PropertyList.get hold ends.consumer.entries).isSome then
      some { ends with consumer := ends.consumer.release hold }
    else none
  | .hello =>
    if ends.consumer.isOpen ∧ ends.consumer.limit = 0 then
      some { ends with consumer := ends.consumer.opened config.calls }
    else none
  | .receive =>
    match ends.provider.outbox with
    | [] => none
    | message :: rest =>
      if ends.consumer.isOpen then
        some ⟨ends.consumer.message message, { ends.provider with outbox := rest }⟩
      else none
  | .handle =>
    match ends.consumer.outbox with
    | [] => none
    | message :: rest =>
      if ends.provider.isOpen then
        match ends.provider.message config message with
        | .ok provider => some ⟨{ ends.consumer with outbox := rest }, provider⟩
        | .error failure => some ⟨{ ends.consumer with outbox := rest },
            { ends.provider.closed with failure := some failure }⟩
      else none
  | .answer call result =>
    if ends.provider.isOpen then
      some { ends with provider :=
        ends.provider.reply call (if result then .result call else .error call) }
    else none
  | .hold hold event =>
    (ends.provider.holdEvent hold event).map fun provider => { ends with provider := provider }
  | .closeConsumer => if ends.consumer.isOpen then some { ends with consumer := ends.consumer.closed } else none
  | .closeProvider => if ends.provider.isOpen then some { ends with provider := ends.provider.closed } else none

end Hummin.Remote
