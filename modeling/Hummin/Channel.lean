/-
One end of a link.  The code runs until it calls out (to the link, the handler
or the report); what it still has to do is a frame on a stack, and every call
but `handler.message` may call back in before it returns.  Inputs are what the
surroundings decide: messages and the close of the link, how a call returns,
when a promise settles, the timer and the owner's calls.
-/
import Hummin.LinkMessage

namespace Hummin.Link

/-- How a link turns messages into bytes and back. -/
structure Codec (B : Type) where
  encode : Message → B
  decode : B → Option Message

inductive ChannelState (B : Type)
  | greeting (queued : List B)
  | open (peer : JsString) (calls : Nat)
  | closed

/-- Messages received while one is handled asynchronously, and the index of the
next to handle. -/
structure Held (B : Type) where
  queue : List B
  next : Nat

structure Channel (B : Type) where
  state : ChannelState B
  lastReceived : Int
  pinged : Bool
  held : Option (Held B)
  waiting : Bool

/-- A call that has not returned, with what follows it; `release` is the loop
of `#release` below the message it handles. -/
inductive Frame (B : Type)
  | greetSend (rest : List B)
  | greetOpened
  | pong
  | message
  | report
  | close
  | closed
  | release

/-- What can be seen from outside: arrivals, the accepted `hello`, calls of
`handler.message`, promises, `link.send`, reports, `link.close` and the call of
`handler.closed`. -/
inductive Event (B : Type)
  | arrived (bytes : B)
  | opened
  | handed (message : Message)
  | promised
  | settled
  | sent (bytes : B)
  | reported
  | closing
  | closed

structure System (B : Type) where
  channel : Channel B
  stack : List (Frame B)
  promises : Nat
  log : List (Event B)

inductive Answer
  | done
  | promise
  | throws

inductive Input (B : Type)
  | deliver (bytes : B) (now : Int)
  | linkClosed
  | answer (answer : Answer)
  | returns
  | throws
  | settle (fulfilled : Bool)
  | tick (now paused ping close : Int)
  | send (message : Message)
  | close

/-- Where the code stands: inside a call, or back at the end of `#handle`. -/
inductive Outcome (B : Type)
  | running (system : System B)
  | returned (system : System B)

variable {B : Type}

def Outcome.system : Outcome B → System B
  | .running system => system
  | .returned system => system

def protocolVersion : Nat := 1

def System.emit (system : System B) (event : Event B) : System B :=
  { system with log := system.log ++ [event] }

def System.push (system : System B) (frame : Frame B) : System B :=
  { system with stack := frame :: system.stack }

def System.pop (system : System B) : System B :=
  { system with stack := system.stack.tail }

/-- The channel of a system before anything arrived. -/
def System.start (now : Int) : System B where
  channel := ⟨.greeting [], now, false, none, false⟩
  stack := []
  promises := 0
  log := []

section Code

variable (codec : Codec B) (trusted : Bool)

/-- `#decode`. -/
def decodeMessage (bytes : B) : Option Message :=
  (codec.decode bytes).filter fun message => trusted || checkMessage message

/-- `#failed`: reported first, the link closes when `report` returns. -/
def failed (system : System B) : Outcome B :=
  match system.channel.state with
  | .closed => .returned system
  | _ => .running ((system.emit .reported).push .report)

/-- The end of `#greet`: what waited is sent, then the handler told. -/
def sendQueued (system : System B) : List B → System B
  | [] => system.push .greetOpened
  | bytes :: rest => (system.emit (.sent bytes)).push (.greetSend rest)

def greet (system : System B) (bytes : B) (queued : List B) : Outcome B :=
  match decodeMessage codec trusted bytes with
  | some ⟨_, .hello protocol incarnation calls⟩ =>
    if protocol = protocolVersion then
      .running (sendQueued (System.emit { system with channel :=
          { system.channel with state := .open incarnation calls } }
        .opened) queued)
    else failed system
  | _ => failed system

/-- `#handle`, up to its first call. -/
def handle (system : System B) (bytes : B) : Outcome B :=
  match system.channel.state with
  | .greeting queued => greet codec trusted system bytes queued
  | _ =>
    match decodeMessage codec trusted bytes with
    | none => failed system
    | some ⟨_, .hello _ _ _⟩ => failed system
    | some ⟨_, .ping⟩ =>
      .running ((system.emit (.sent (codec.encode ⟨none, .pong⟩))).push .pong)
    | some ⟨_, .pong⟩ => .returned system
    | some message => .running ((system.emit (.handed message)).push .message)

def receive (system : System B) (bytes : B) (now : Int) : System B :=
  match system.channel.state with
  | .closed => system.emit (.arrived bytes)
  | _ =>
    let system : System B := System.emit
      { system with channel :=
        { system.channel with lastReceived := now, pinged := false } }
      (.arrived bytes)
    match system.channel.held with
    | none => (handle codec trusted system bytes).system
    | some held =>
      { system with channel := { system.channel with
        held := some { held with queue := held.queue ++ [bytes] } } }

/-- `#hold`. -/
def hold (system : System B) : System B :=
  System.emit
    { system with
      channel := { system.channel with
        held := some (system.channel.held.getD ⟨[], 0⟩), waiting := true }
      promises := system.promises + 1 }
    .promised

/-- The handled messages are dropped from the queue when one holds again. -/
def compact (system : System B) : System B :=
  { system with channel := { system.channel with
    held := system.channel.held.map fun held => ⟨held.queue.drop held.next, 0⟩ } }

def advance (system : System B) : System B :=
  { system with channel := { system.channel with
    held := system.channel.held.map fun held =>
      { held with next := held.next + 1 } } }

/-- The loop of `#release` over what the queue still holds, with its frame on
the stack. -/
def releaseLoop : List B → System B → System B
  | [], system =>
    System.pop { system with channel := { system.channel with held := none } }
  | bytes :: rest, system =>
    match system.channel.state with
    | .open _ _ =>
      match handle codec trusted (advance system) bytes with
      | .running system => system
      | .returned system =>
        if system.channel.waiting then (compact system).pop
        else releaseLoop rest system
    | _ => system.pop

/-- The loop's condition is read again; without `#held` the link closed
meanwhile, and either way out of the loop leaves it so. -/
def continueRelease (system : System B) : System B :=
  match system.channel.held with
  | none => system.pop
  | some held => releaseLoop codec trusted (held.queue.drop held.next) system

/-- `#handle` returned: to the loop of `#release`, or to the link. -/
def resume (system : System B) : System B :=
  match system.stack with
  | .release :: _ =>
    if system.channel.waiting then (compact system).pop
    else continueRelease codec trusted system
  | _ => system

def finish (outcome : Outcome B) : System B :=
  match outcome with
  | .running system => system
  | .returned system => resume codec trusted system

/-- `handler.message` answered. -/
def answered (system : System B) : Answer → System B
  | .done => resume codec trusted system
  | .promise => resume codec trusted (hold system)
  | .throws => finish codec trusted (failed system)

/-- The callbacks of a settled promise. -/
def settled (system : System B) (fulfilled : Bool) : System B :=
  let system : System B :=
    System.emit { system with promises := system.promises - 1 } .settled
  if fulfilled then
    let system : System B :=
      { system with channel := { system.channel with waiting := false } }
    match system.channel.held with
    | none => system
    | some _ => continueRelease codec trusted (system.push .release)
  else (failed system).system

/-- `#closed`. -/
def linkClosed (system : System B) : System B :=
  match system.channel.state with
  | .closed => system
  | _ =>
    (System.emit { system with channel :=
        { system.channel with state := .closed, held := none } }
      .closed).push .closed

def tick (system : System B) (now paused ping close : Int) : System B :=
  let lastReceived :=
    if 0 < paused then min (system.channel.lastReceived + paused) (now - ping)
    else system.channel.lastReceived
  let system : System B :=
    { system with channel :=
      { system.channel with lastReceived := lastReceived } }
  let silent := now - lastReceived
  if close ≤ silent then system.emit .closing
  else match system.channel.state with
    | .open _ _ =>
      if ping ≤ silent ∧ system.channel.pinged = false then
        System.emit
          { system with channel := { system.channel with pinged := true } }
          (.sent (codec.encode ⟨none, .ping⟩))
      else system
    | _ => system

/-- The owner's `send`. -/
def sendMessage (system : System B) (message : Message) : System B :=
  match system.channel.state with
  | .closed => system
  | .greeting queued =>
    { system with channel := { system.channel with
      state := .greeting (queued ++ [codec.encode message]) } }
  | .open _ _ => system.emit (.sent (codec.encode message))

/-- Whether `handler.message` is running: the link is assumed silent then. -/
def System.inMessage (system : System B) : Bool :=
  match system.stack with
  | .message :: _ => true
  | _ => false

/-- One step; `none` is an input that cannot come here. -/
def step (system : System B) : Input B → Option (System B)
  | .deliver bytes now =>
    if system.inMessage then none
    else some (receive codec trusted system bytes now)
  | .linkClosed =>
    if system.inMessage then none else some (linkClosed system)
  | .answer answer =>
    match system.stack with
    | .message :: _ => some (answered codec trusted system.pop answer)
    | _ => none
  | .returns =>
    match system.stack with
    | .greetSend rest :: _ => some (sendQueued system.pop rest)
    | .greetOpened :: _ | .pong :: _ | .close :: _ =>
      some (resume codec trusted system.pop)
    | .report :: _ => some ((system.pop.emit .closing).push .close)
    | .closed :: _ => some system.pop
    | _ => none
  | .throws =>
    match system.stack with
    | .greetSend _ :: _ | .greetOpened :: _ | .pong :: _ =>
      some (finish codec trusted (failed system.pop))
    | _ => none
  | .settle fulfilled =>
    if system.stack.isEmpty && decide (0 < system.promises) then
      some (settled codec trusted system fulfilled)
    else none
  | .tick now paused ping close => some (tick codec system now paused ping close)
  | .send message => some (sendMessage codec system message)
  | .close => some (system.emit .closing)

end Code

end Hummin.Link
