/-
In-order handling.  What the outside sees of a channel is a log; every run
keeps the handed messages a prefix of those that were due, and hands nothing
over before the peer's `hello`, after the close, or past a pending promise.
-/
import Hummin.Channel
import Hummin.Machine

namespace Hummin.Link

open List

variable {B : Type}

/-! ### What a log says -/

/-- The kinds that the channel answers itself. -/
def isControl : Message → Bool
  | ⟨_, .hello _ _ _⟩ | ⟨_, .ping⟩ | ⟨_, .pong⟩ => true
  | _ => false

/-- A log's summary: whether the peer's `hello` was accepted, `closed` called
and the link told to close, what was due to and handed to the handler, and the
promises not settled. -/
structure Observed where
  opened : Bool
  closed : Bool
  closing : Bool
  due : List Message
  handed : List Message
  pending : Nat

section Log

variable (codec : Codec B) (trusted : Bool)

/-- The message that bytes received after the handshake are due as. -/
def deliverable (bytes : B) : Option Message :=
  (decodeMessage codec trusted bytes).filter fun message => !isControl message

def observe (seen : Observed) : Event B → Observed
  | .arrived bytes =>
    if seen.opened && !seen.closed then
      { seen with due := seen.due ++ (deliverable codec trusted bytes).toList }
    else seen
  | .opened => { seen with opened := true }
  | .handed message => { seen with handed := seen.handed ++ [message] }
  | .promised => { seen with pending := seen.pending + 1 }
  | .settled => { seen with pending := seen.pending - 1 }
  | .closing => { seen with closing := true }
  | .closed => { seen with closed := true }
  | .sent _ | .reported => seen

def observed (log : List (Event B)) : Observed :=
  log.foldl (observe codec trusted) ⟨false, false, false, [], [], 0⟩

/-- Nothing is handed over while a promise is pending, before the peer's
`hello` or after the close. -/
def Orderly (log : List (Event B)) : Prop :=
  ∀ front message, front ++ [Event.handed message] <+: log →
    (observed codec trusted front).pending = 0 ∧
      (observed codec trusted front).opened = true ∧
      (observed codec trusted front).closed = false

end Log

variable {codec : Codec B} {trusted : Bool}

@[simp]
theorem observed_append (log : List (Event B)) (event : Event B) :
    observed codec trusted (log ++ [event]) =
      observe codec trusted (observed codec trusted log) event := by
  rw [observed, foldl_append]
  rfl

variable {seen : Observed}

theorem observe_arrived (hopened : seen.opened = true)
    (hclosed : seen.closed = false) (bytes : B) :
    observe codec trusted seen (.arrived bytes) = { seen with
      due := seen.due ++ (deliverable codec trusted bytes).toList } := by
  rw [observe, hopened, hclosed]
  rfl

variable {log : List (Event B)} {event : Event B}

theorem Orderly.append (horderly : Orderly codec trusted log)
    (hevent : ∀ message, event = .handed message → (observed codec trusted log).pending = 0 ∧
        (observed codec trusted log).opened = true ∧ (observed codec trusted log).closed = false) :
    Orderly codec trusted (log ++ [event]) := by
  intro front message hprefix
  rcases prefix_concat_iff.mp hprefix with heq | hprefix
  · obtain ⟨rfl, hlast⟩ := append_inj' heq rfl
    exact hevent message (singleton_inj.mp hlast).symm
  · exact horderly front message hprefix

/-! ### The invariant -/

def ChannelState.isOpen : ChannelState B → Bool
  | .open _ _ => true
  | _ => false

def ChannelState.isClosed : ChannelState B → Bool
  | .closed => true
  | _ => false

def Frame.isMessage : Frame B → Bool
  | .message => true
  | _ => false

def Frame.isRelease : Frame B → Bool
  | .release => true
  | _ => false

def Frame.isReport : Frame B → Bool
  | .report => true
  | _ => false

def Frame.isClosed : Frame B → Bool
  | .closed => true
  | _ => false

/-- What the queue still holds back. -/
def heldBack (codec : Codec B) (trusted : Bool) (held : Option (Held B)) :
    List Message :=
  match held with
  | none => []
  | some held =>
    (held.queue.drop held.next).filterMap (deliverable codec trusted)

/-- Before the close the channel handles messages as they come, waits for a
promise, or works off its queue below one call. -/
inductive Mode (closing : Bool) (held : Option (Held B))
    (waiting isOpen : Bool) (stack : List (Frame B)) (promises : Nat) : Prop
  | idle (hheld : held = none) (hwaiting : waiting = false)
      (hpromises : promises = 0)
      (hstack : ∀ frame ∈ stack, frame.isRelease = false)
  | waiting (queue : Held B) (hheld : held = some queue)
      (hnext : queue.next ≤ queue.queue.length) (hwaiting : waiting = true)
      (hopen : isOpen = true) (hpromises : promises ≤ 1)
      (hstack : ∀ frame ∈ stack, frame.isRelease = false ∧ frame.isMessage = false)
      (hsettled : promises = 0 → closing = true ∨ ∃ frame ∈ stack, frame.isReport = true)
  | releasing (queue : Held B) (frame : Frame B) (hheld : held = some queue)
      (hnext : queue.next ≤ queue.queue.length) (hwaiting : waiting = false)
      (hopen : isOpen = true) (hpromises : promises = 0)
      (hstack : stack = [frame, .release]) (hframe : frame.isRelease = false)

/-- With nothing held back the channel is idle. -/
theorem Mode.of_none {closing waiting isOpen : Bool} {stack : List (Frame B)} {promises : Nat}
    (hmode : Mode closing none waiting isOpen stack promises) :
    waiting = false ∧ promises = 0 ∧ ∀ frame ∈ stack, frame.isRelease = false := by
  cases hmode with
  | idle _ hwaiting hpromises hstack => exact ⟨hwaiting, hpromises, hstack⟩
  | waiting _ hheld | releasing _ _ hheld => cases hheld

section Invariant

variable (codec : Codec B) (trusted : Bool)

/-- What holds before the close. -/
structure Live (seen : Observed) (channel : Channel B) (stack : List (Frame B))
    (promises : Nat) : Prop where
  opened_eq : seen.opened = channel.state.isOpen
  balanced : seen.handed ++ heldBack codec trusted channel.held = seen.due
  not_closed : ∀ frame ∈ stack, frame.isClosed = false
  message_open : ∀ frame ∈ stack, frame.isMessage = true →
    channel.state.isOpen = true
  mode : Mode seen.closing channel.held channel.waiting channel.state.isOpen
    stack promises

/-- The summary of the log fits the state. -/
structure Matches (seen : Observed) (channel : Channel B)
    (stack : List (Frame B)) (promises : Nat) : Prop where
  pending_eq : seen.pending = promises
  handed_due : seen.handed <+: seen.due
  closed_eq : seen.closed = channel.state.isClosed
  below : ∀ frame ∈ stack.tail, frame.isMessage = false
  live : channel.state.isClosed = false →
    Live codec trusted seen channel stack promises
  dead : channel.state.isClosed = true →
    ∀ frame ∈ stack, frame.isMessage = false

structure Inv (system : System B) : Prop where
  orderly : Orderly codec trusted system.log
  fits : Matches codec trusted (observed codec trusted system.log) system.channel
    system.stack system.promises

end Invariant

/-! ### Small steps -/

/-- Calls other than `handler.message` and `handler.closed`. -/
def Frame.isPlain : Frame B → Bool
  | .message | .closed | .release => false
  | _ => true

theorem Frame.isPlain_iff (frame : Frame B) : frame.isPlain = true ↔
    frame.isMessage = false ∧ frame.isRelease = false ∧ frame.isClosed = false := by
  cases frame <;> simp [isPlain, isMessage, isRelease, isClosed]

variable {bytes : B} {rest items : List B} {system : System B}

theorem Inv.sent (hinv : Inv codec trusted system)
    (bytes : B) : Inv codec trusted (system.emit (.sent bytes)) where
  orderly := hinv.orderly.append (by simp)
  fits := by simpa [System.emit, observe] using hinv.fits

theorem Inv.reported (hinv : Inv codec trusted system) :
    Inv codec trusted (system.emit .reported) where
  orderly := hinv.orderly.append (by simp)
  fits := by simpa [System.emit, observe] using hinv.fits

variable {channel : Channel B} {stack : List (Frame B)}

theorem Matches.closing
    {promises : Nat}
    (hfits : Matches codec trusted seen channel stack promises) :
    Matches codec trusted { seen with closing := true } channel stack promises := by
  refine ⟨hfits.pending_eq, hfits.handed_due, hfits.closed_eq, hfits.below, ?_, hfits.dead⟩
  intro hlive
  have hold := hfits.live hlive
  refine ⟨hold.opened_eq, hold.balanced, hold.not_closed, hold.message_open, ?_⟩
  cases hold.mode with
  | idle hheld hwaiting hpromises hstack =>
    exact .idle hheld hwaiting hpromises hstack
  | waiting held hheld hnext hwaiting hopen hpromises hstack hsettled =>
    exact .waiting held hheld hnext hwaiting hopen hpromises hstack
      fun _ => Or.inl rfl
  | releasing held frame hheld hnext hwaiting hopen hpromises hstack hframe =>
    exact .releasing held frame hheld hnext hwaiting hopen hpromises hstack
      hframe

theorem Inv.closing (hinv : Inv codec trusted system) :
    Inv codec trusted (system.emit .closing) where
  orderly := hinv.orderly.append (by simp)
  fits := by simpa [System.emit, observe] using hinv.fits.closing

variable {frame : Frame B}

theorem pop_stack {rest : List (Frame B)} (hstack : system.stack = frame :: rest) :
    system.pop.stack = rest := by
  rw [System.pop, hstack]
  rfl

/-- Another call takes the place of the one on top. -/
theorem Inv.swap (hinv : Inv codec trusted system)
    {rest : List (Frame B)}
    (hstack : system.stack = frame :: rest) (other : Frame B)
    (hother : other.isPlain = true)
    (hreport : frame.isReport = true → (observed codec trusted system.log).closing = true) :
    Inv codec trusted (system.pop.push other) := by
  rw [System.push, pop_stack hstack]
  obtain ⟨hmessage, hrelease, hclosed⟩ := other.isPlain_iff.mp hother
  have hfits := hinv.fits
  rw [hstack] at hfits
  have hbelow : ∀ frame ∈ rest, frame.isMessage = false := hfits.below
  refine ⟨hinv.orderly, hfits.pending_eq, hfits.handed_due, hfits.closed_eq, hbelow, ?_, ?_⟩
  · intro hlive
    have hold := hfits.live hlive
    have hrest : ∀ {P : Frame B → Prop}, (∀ each ∈ frame :: rest, P each) →
        P other → ∀ each ∈ other :: rest, P each := by
      intro P hall hP each heach
      rcases mem_cons.mp heach with rfl | heach
      · exact hP
      · exact hall each (mem_cons_of_mem _ heach)
    refine ⟨hold.opened_eq, hold.balanced, hrest hold.not_closed hclosed,
      hrest hold.message_open (by simp [hmessage]), ?_⟩
    cases hold.mode with
    | idle hheld hwaiting hpromises hstack =>
      exact .idle hheld hwaiting hpromises (hrest hstack hrelease)
    | waiting held hheld hnext hwaiting hopen hpromises hstack hsettled =>
      refine .waiting held hheld hnext hwaiting hopen hpromises
        (hrest hstack ⟨hrelease, hmessage⟩) fun hzero => ?_
      rcases hsettled hzero with hclosing | ⟨each, heach, hreporting⟩
      · exact Or.inl hclosing
      rcases mem_cons.mp heach with rfl | heach
      · exact Or.inl (hreport hreporting)
      · exact Or.inr ⟨each, mem_cons_of_mem _ heach, hreporting⟩
    | releasing held top hheld hnext hwaiting hopen hpromises hstack hframe =>
      cases hstack
      exact .releasing held other hheld hnext hwaiting hopen hpromises rfl
        hrelease
  intro _ each heach
  rcases mem_cons.mp heach with rfl | heach
  · exact hmessage
  · exact hbelow each heach

/-! ### Handling -/

theorem ChannelState.eq_open {state : ChannelState B} (hopen : state.isOpen = true) :
    ∃ peer calls, state = .open peer calls := by
  cases state with
  | greeting | closed => cases hopen
  | «open» peer calls => exact ⟨peer, calls, rfl⟩

theorem deliverable_of_decode {decoded : Option Message}
    (hdecode : decodeMessage codec trusted bytes = decoded) :
    deliverable codec trusted bytes =
      decoded.filter fun message => !isControl message := by
  rw [deliverable, hdecode]

/-- An open channel about to handle bytes that are due: what `#handle` does
with them. -/
theorem handle_open (hopen : system.channel.state.isOpen = true) (bytes : B) :
    (∃ message, deliverable codec trusted bytes = some message ∧ handle codec trusted system bytes =
        .running ((system.emit (.handed message)).push .message)) ∨
    (deliverable codec trusted bytes = none ∧
      (handle codec trusted system bytes = .returned system ∨ handle codec trusted system bytes =
          .running ((system.emit .reported).push .report) ∨
        ∃ answer, handle codec trusted system bytes =
          .running ((system.emit (.sent answer)).push .pong))) := by
  obtain ⟨peer, calls, hstate⟩ := ChannelState.eq_open hopen
  have hfailed : failed system =
      .running ((system.emit .reported).push .report) := by
    rw [failed, hstate]
  cases hdecode : decodeMessage codec trusted bytes with
  | none =>
    rw [deliverable_of_decode hdecode]
    simp [handle, hstate, hdecode, hfailed]
  | some message =>
    obtain ⟨origin, body⟩ := message
    rw [deliverable_of_decode hdecode]
    cases body with
    | ping =>
      right
      refine ⟨rfl, Or.inr (Or.inr ⟨codec.encode ⟨none, .pong⟩, ?_⟩)⟩
      simp [handle, hstate, hdecode]
    | _ => simp [handle, hstate, hdecode, hfailed, isControl, Option.filter]

/-- The log of an open channel without a pending promise, with the messages
that are due and not handed over. -/
structure OpenLog (seen : Observed) (rest : List Message) : Prop where
  pending_eq : seen.pending = 0
  opened_eq : seen.opened = true
  closed_eq : seen.closed = false
  balanced : seen.handed ++ rest = seen.due

theorem OpenLog.handed {message : Message}
    {rest : List Message} (hlog : OpenLog seen (message :: rest)) :
    OpenLog (observe codec trusted seen (.handed message)) rest :=
  ⟨hlog.pending_eq, hlog.opened_eq, hlog.closed_eq, by
    simpa [observe] using hlog.balanced⟩

theorem Orderly.handed (horderly : Orderly codec trusted log) {rest : List Message}
    (hlog : OpenLog (observed codec trusted log) rest) (message : Message) :
    Orderly codec trusted (log ++ [Event.handed message]) :=
  horderly.append fun _ _ =>
    ⟨hlog.pending_eq, hlog.opened_eq, hlog.closed_eq⟩

theorem isClosed_of_isOpen {state : ChannelState B}
    (hopen : state.isOpen = true) : state.isClosed = false := by
  obtain ⟨peer, calls, rfl⟩ := ChannelState.eq_open hopen
  rfl

/-- An open channel between promises satisfies the invariant when its stack
fits its queue. -/
theorem inv_open (horderly : Orderly codec trusted system.log)
    (hlog : OpenLog (observed codec trusted system.log)
      (heldBack codec trusted system.channel.held)) (hopen : system.channel.state.isOpen = true)
    (hpromises : system.promises = 0)
    (hbelow : ∀ frame ∈ system.stack.tail, frame.isMessage = false)
    (hclosed : ∀ frame ∈ system.stack, frame.isClosed = false)
    (hmode : Mode (observed codec trusted system.log).closing
      system.channel.held system.channel.waiting system.channel.state.isOpen
      system.stack system.promises) : Inv codec trusted system := by
  have hlive := isClosed_of_isOpen hopen
  refine ⟨horderly, ?_, ⟨_, hlog.balanced⟩, ?_, hbelow, fun _ => ?_, ?_⟩
  · rw [hlog.pending_eq, hpromises]
  · rw [hlog.closed_eq, hlive]
  · exact ⟨hlog.opened_eq.trans hopen.symm, hlog.balanced, hclosed, fun _ _ _ => hopen, hmode⟩
  intro hdead
  rw [hlive] at hdead
  simp at hdead

/-- The loop of `#release` with its frame alone on the stack. -/
structure Releases (codec : Codec B) (trusted : Bool) (items : List B)
    (system : System B) : Prop where
  orderly : Orderly codec trusted system.log
  log : OpenLog (observed codec trusted system.log)
    (items.filterMap (deliverable codec trusted))
  is_open : system.channel.state.isOpen = true
  promises_eq : system.promises = 0
  stack_eq : system.stack = [.release]
  waiting_eq : system.channel.waiting = false
  held : ∃ held, system.channel.held = some held ∧
    held.next ≤ held.queue.length ∧ held.queue.drop held.next = items

section

variable (hready : Releases codec trusted (bytes :: rest) system)

include hready

theorem Releases.held_advance :
    ∃ held, (advance system).channel.held = some held ∧
      held.next ≤ held.queue.length ∧ held.queue.drop held.next = rest := by
  obtain ⟨held, hheld, hnext, hdrop⟩ := hready.held
  have hlt : held.next < held.queue.length := by
    by_contra hge
    rw [drop_eq_nil_of_le (not_lt.mp hge)] at hdrop
    simp at hdrop
  refine ⟨⟨held.queue, held.next + 1⟩, ?_, hlt, ?_⟩
  · rw [advance]
    simp [hheld]
  rw [← tail_drop, hdrop]
  rfl

/-- The bytes at the front were due as nothing. -/
theorem Releases.advance (hnone : deliverable codec trusted bytes = none) :
    Releases codec trusted rest (advance system) := by
  have hlog := hready.log
  rw [filterMap_cons_none hnone] at hlog
  exact ⟨hready.orderly, hlog, hready.is_open, hready.promises_eq,
    hready.stack_eq, hready.waiting_eq, hready.held_advance⟩

/-- The message at the front is handed over. -/
theorem Releases.handed {message : Message}
    (hsome : deliverable codec trusted bytes = some message) :
    Releases codec trusted rest ((Link.advance system).emit (.handed message)) := by
  have hlog := hready.log
  rw [filterMap_cons_some hsome] at hlog
  refine ⟨hready.orderly.handed hlog message, ?_, hready.is_open,
    hready.promises_eq, hready.stack_eq, hready.waiting_eq, hready.held_advance⟩
  simpa [System.emit, Link.advance] using hlog.handed

end

section

variable (hready : Releases codec trusted items system)
include hready

theorem Releases.emit (hevent : event = .reported ∨ ∃ bytes, event = .sent bytes) :
    Releases codec trusted items (system.emit event) := by
  refine ⟨hready.orderly.append ?_, ?_, hready.is_open, hready.promises_eq,
    hready.stack_eq, hready.waiting_eq, hready.held⟩
  · rintro message rfl
    simp at hevent
  have hlog := hready.log
  rcases hevent with rfl | ⟨bytes, rfl⟩ <;>
    simpa [System.emit, observe] using hlog

/-- A call above the loop. -/
theorem Releases.push (hrelease : frame.isRelease = false) (hclosed : frame.isClosed = false) :
    Inv codec trusted (system.push frame) := by
  obtain ⟨held, hheld, hnext, hdrop⟩ := hready.held
  have hstack : (system.push frame).stack = [frame, .release] := by
    rw [System.push, hready.stack_eq]
  refine inv_open hready.orderly ?_ hready.is_open hready.promises_eq ?_ ?_
    (.releasing held frame hheld hnext hready.waiting_eq hready.is_open
      hready.promises_eq hstack hrelease)
  · have hlog := hready.log
    rw [← hdrop] at hlog
    simpa [System.push, hheld, heldBack] using hlog
  · simp [hstack, Frame.isMessage]
  simp only [hstack, forall_mem_cons, hclosed, true_and]
  simp [Frame.isClosed]

theorem releaseLoop_inv : Inv codec trusted (releaseLoop codec trusted items system) := by
  induction items generalizing system with
  | nil =>
    rw [releaseLoop]
    have hstack := hready.stack_eq
    refine inv_open hready.orderly hready.log hready.is_open hready.promises_eq
      ?_ ?_ (.idle rfl hready.waiting_eq hready.promises_eq ?_)
    all_goals simp [System.pop, hstack]
  | cons bytes rest ih =>
    have hopen : (advance system).channel.state.isOpen = true := hready.is_open
    obtain ⟨peer, calls, hstate⟩ := ChannelState.eq_open hready.is_open
    rw [releaseLoop, hstate]
    rcases handle_open hopen bytes with ⟨message, hsome, hhandle⟩ |
      ⟨hnone, hhandle | hhandle | ⟨answer, hhandle⟩⟩ <;> rw [hhandle]
    · exact (hready.handed hsome).push rfl rfl
    · have hnext := hready.advance hnone
      simp only [hnext.waiting_eq, Bool.false_eq_true, ↓reduceIte]
      exact ih hnext
    · exact ((hready.advance hnone).emit (Or.inl rfl)).push rfl rfl
    · exact ((hready.advance hnone).emit (Or.inr ⟨answer, rfl⟩)).push rfl rfl

end

/-- On a closed channel only the stack moves. -/
theorem Inv.shrink {system : System B} (hinv : Inv codec trusted system)
    (hdead : system.channel.state.isClosed = true)
    (hstate : channel.state = system.channel.state)
    (hstack : ∀ frame ∈ stack, frame ∈ system.stack) :
    Inv codec trusted { system with channel := channel, stack := stack } := by
  have hmessage := hinv.fits.dead hdead
  refine ⟨hinv.orderly, hinv.fits.pending_eq, hinv.fits.handed_due, ?_, ?_, ?_, ?_⟩
  · rw [hinv.fits.closed_eq, hstate]
  · intro frame hframe
    exact hmessage frame (hstack frame (mem_of_mem_tail hframe))
  · intro hlive
    rw [hstate, hdead] at hlive
    simp at hlive
  intro _ frame hframe
  exact hmessage frame (hstack frame hframe)

theorem continueRelease_closed (hdead : system.channel.state.isClosed = true) :
    ∃ channel, channel.state = system.channel.state ∧
      continueRelease codec trusted system =
        { system with channel := channel, stack := system.stack.tail } := by
  rw [continueRelease]
  cases system.channel.held with
  | none => exact ⟨system.channel, rfl, rfl⟩
  | some held =>
    simp only
    cases held.queue.drop held.next with
    | nil => exact ⟨{ system.channel with held := none }, rfl, rfl⟩
    | cons bytes rest =>
      refine ⟨system.channel, rfl, ?_⟩
      rw [releaseLoop]
      cases hstate : system.channel.state with
      | greeting | «open» => simp [hstate, ChannelState.isClosed] at hdead
      | closed => rfl

theorem resume_closed (codec : Codec B) (trusted : Bool) {system : System B}
    (hdead : system.channel.state.isClosed = true) :
    ∃ channel stack, channel.state = system.channel.state ∧
      (∀ frame ∈ stack, frame ∈ system.stack) ∧
      resume codec trusted system =
        { system with channel := channel, stack := stack } := by
  have htail : ∀ frame ∈ system.stack.tail, frame ∈ system.stack :=
    fun frame hframe => mem_of_mem_tail hframe
  rw [resume]
  split
  · split
    · exact ⟨(compact system).channel, system.stack.tail, rfl, htail, rfl⟩
    obtain ⟨channel, hstate, heq⟩ := continueRelease_closed hdead
    exact ⟨channel, system.stack.tail, hstate, htail, heq⟩
  · exact ⟨system.channel, system.stack, rfl, fun _ hframe => hframe, rfl⟩

theorem resume_eq_self (hnone : ∀ frame ∈ system.stack, frame.isRelease = false) :
    resume codec trusted system = system := by
  rw [resume]
  split
  next rest hstack =>
    have htop := hnone .release (by rw [hstack]; exact mem_cons_self)
    simp [Frame.isRelease] at htop
  · rfl

/-- `#handle` returns from a call other than `report`. -/
theorem Inv.resume {system : System B} (hinv : Inv codec trusted system) {rest : List (Frame B)}
    (hstack : system.stack = frame :: rest) (hreport : frame.isReport = false) :
    Inv codec trusted (resume codec trusted system.pop) := by
  have hpop := pop_stack hstack
  have hfits := hinv.fits
  rw [hstack] at hfits
  by_cases hdead : system.channel.state.isClosed = true
  · obtain ⟨channel, stack, hstate, hsubset, heq⟩ :=
      resume_closed codec trusted
        (show system.pop.channel.state.isClosed = true from hdead)
    rw [heq]
    refine hinv.shrink hdead hstate fun each heach => ?_
    rw [hstack]
    exact mem_cons_of_mem _ (hpop ▸ hsubset each heach)
  have hlive := hfits.live (by simpa using hdead)
  have hkeep : (∀ each ∈ rest, each.isRelease = false) →
      Link.resume codec trusted system.pop = system.pop := by
    intro hnone
    apply resume_eq_self
    rw [hpop]
    exact hnone
  have htail : ∀ {P : Frame B → Prop}, (∀ each ∈ frame :: rest, P each) →
      ∀ each ∈ rest, P each := fun hall each heach =>
    hall each (mem_cons_of_mem _ heach)
  have hpopped : ∀ hmode : Mode (observed codec trusted system.log).closing
      system.channel.held system.channel.waiting system.channel.state.isOpen
      rest system.promises, Inv codec trusted system.pop := by
    intro hmode
    refine ⟨hinv.orderly, hfits.pending_eq, hfits.handed_due, hfits.closed_eq,
      ?_, fun _ => ⟨hlive.opened_eq, hlive.balanced, ?_, ?_, ?_⟩, ?_⟩
    · rw [hpop]
      exact fun each heach => hfits.below each (mem_of_mem_tail heach)
    · rw [hpop]
      exact htail hlive.not_closed
    · rw [hpop]
      exact htail hlive.message_open
    · rw [hpop]
      exact hmode
    · rw [hpop]
      exact fun _ => hfits.below
  cases hlive.mode with
  | idle hheld hwaiting hpromises hnone =>
    rw [hkeep (htail hnone)]
    exact hpopped (.idle hheld hwaiting hpromises (htail hnone))
  | waiting held hheld hnext hwaiting hopen hpromises hnone hsettled =>
    rw [hkeep fun each heach => (htail hnone each heach).1]
    refine hpopped (.waiting held hheld hnext hwaiting hopen hpromises
      (htail hnone) fun hzero => ?_)
    rcases hsettled hzero with hclosing | ⟨each, heach, hreporting⟩
    · exact Or.inl hclosing
    rcases mem_cons.mp heach with rfl | heach
    · rw [hreport] at hreporting
      simp at hreporting
    · exact Or.inr ⟨each, heach, hreporting⟩
  | releasing held top hheld hnext hwaiting hopen hpromises hpair hframe =>
    cases hpair
    rw [Link.resume, hpop]
    have hwaiting' : system.pop.channel.waiting = false := hwaiting
    have hheld' : system.pop.channel.held = some held := hheld
    simp only [hwaiting', Bool.false_eq_true, ↓reduceIte, continueRelease, hheld']
    apply releaseLoop_inv
    refine ⟨hinv.orderly, ⟨?_, ?_, ?_, ?_⟩, hopen, hpromises, hpop, hwaiting,
      held, hheld, hnext, rfl⟩
    · exact hfits.pending_eq.trans hpromises
    · exact hlive.opened_eq.trans hopen
    · exact hfits.closed_eq.trans (isClosed_of_isOpen hopen)
    have hbalanced := hlive.balanced
    rwa [hheld] at hbalanced

section

variable (hinv : Inv codec trusted system)

include hinv

variable {frame : Frame B}

/-- `#failed` in the place of the call on top. -/
theorem Inv.failed {rest : List (Frame B)}
    (hstack : system.stack = frame :: rest) (hreport : frame.isReport = false) :
    Inv codec trusted (finish codec trusted (failed system.pop)) := by
  have hnot : frame.isReport = true →
      (observed codec trusted (system.emit .reported).log).closing = true := by
    simp [hreport]
  rw [Link.failed]
  cases hstate : system.pop.channel.state with
  | closed => exact hinv.resume hstack hreport
  | greeting | «open» => exact hinv.reported.swap hstack .report rfl hnot

/-- A promise on an open channel: the later messages wait for it. -/
theorem Inv.waits (hlive : Live codec trusted (observed codec trusted system.log)
      system.channel system.stack system.promises) (hopen : system.channel.state.isOpen = true)
    (hpromises : system.promises = 0) (channel : Channel B)
    (hstate : channel.state = system.channel.state)
    (hwaiting : channel.waiting = true) {held : Held B}
    (hheld : channel.held = some held) (hnext : held.next ≤ held.queue.length)
    (hback : heldBack codec trusted (some held) = heldBack codec trusted system.channel.held)
    {stack : List (Frame B)} (hstack : ∀ frame ∈ stack, frame ∈ system.stack ∧
      frame.isRelease = false ∧ frame.isMessage = false) :
    Inv codec trusted ⟨channel, stack, system.promises + 1, system.log ++ [Event.promised]⟩ := by
  refine ⟨hinv.orderly.append (by simp), ?_⟩
  simp only [observed_append, observe]
  refine ⟨?_, hinv.fits.handed_due, ?_, ?_, fun _ => ⟨?_, ?_, ?_, ?_, ?_⟩, ?_⟩
  · simp only [hinv.fits.pending_eq]
  · rw [hstate]
    exact hinv.fits.closed_eq
  · exact fun frame hframe => (hstack frame (mem_of_mem_tail hframe)).2.2
  · rw [hstate]
    exact hlive.opened_eq
  · rw [hheld, hback]
    exact hlive.balanced
  · exact fun frame hframe => hlive.not_closed frame (hstack frame hframe).1
  · rw [hstate]
    exact fun _ _ _ => hopen
  · refine .waiting held hheld hnext hwaiting (by rw [hstate]; exact hopen)
      (by omega) (fun frame hframe => (hstack frame hframe).2) ?_
    intro hzero
    omega
  · exact fun _ frame hframe => (hstack frame hframe).2.2

theorem Inv.answered {rest : List (Frame B)} (hstack : system.stack = .message :: rest)
    (answer : Answer) : Inv codec trusted (answered codec trusted system.pop answer) := by
  cases answer with
  | done => exact hinv.resume hstack rfl
  | throws => exact hinv.failed hstack rfl
  | promise =>
    have hfits := hinv.fits
    have hbelow := hfits.below
    rw [hstack] at hbelow
    have hpop : hold system.pop = ⟨(hold system.pop).channel, rest,
        system.promises + 1, system.log ++ [Event.promised]⟩ := by
      simp [hold, System.emit, System.pop, hstack]
    have hmem : ∀ frame ∈ rest, frame ∈ system.stack := by
      rw [hstack]
      exact fun frame hframe => mem_cons_of_mem _ hframe
    have htop : Frame.message ∈ system.stack := by
      rw [hstack]
      exact mem_cons_self
    -- `handler.message` runs on an open channel only
    have hlive : system.channel.state.isClosed = false := by
      by_contra hdead
      have hmessage := hfits.dead (by simpa using hdead) .message htop
      simp [Frame.isMessage] at hmessage
    have hold := hfits.live hlive
    have hopen := hold.message_open .message htop rfl
    rw [Link.answered]
    cases hold.mode with
    | idle hheld hwaiting hpromises hnone =>
      rw [resume_eq_self, hpop]
      · refine hinv.waits hold hopen hpromises
          (Link.hold system.pop).channel rfl rfl
          (show _ = some ⟨[], 0⟩ from ?_) le_rfl ?_ fun frame hframe =>
            ⟨hmem frame hframe, hnone frame (hmem frame hframe), hbelow frame hframe⟩
        · simp [Link.hold, System.emit, System.pop, hheld]
        · simp [heldBack, hheld]
      rw [hpop]
      exact fun frame hframe => hnone frame (hmem frame hframe)
    | waiting held hheld hnext hwaiting hopen hpromises hnone hsettled =>
      have hmessage := (hnone .message htop).2
      simp [Frame.isMessage] at hmessage
    | releasing held top hheld hnext hwaiting hopen hpromises hpair hframe =>
      rw [hstack] at hpair
      cases hpair
      have hresume : Link.resume codec trusted (Link.hold system.pop) =
          ⟨(compact (Link.hold system.pop)).channel, [],
            system.promises + 1, system.log ++ [Event.promised]⟩ := by
        rw [Link.resume, hpop]
        simp [compact, System.pop, Link.hold, System.emit]
      rw [hresume]
      refine hinv.waits hold hopen hpromises
        (compact (Link.hold system.pop)).channel rfl rfl
        (show _ = some ⟨held.queue.drop held.next, 0⟩ from ?_)
        (Nat.zero_le _) ?_ (by simp)
      · simp [compact, Link.hold, System.emit, System.pop, hheld]
      · simp [heldBack, hheld]

/-! ### Steps and runs -/

theorem Inv.no_message (hmessage : system.inMessage = false) :
    ∀ frame ∈ system.stack, frame.isMessage = false := by
  have hbelow := hinv.fits.below
  cases hstack : system.stack with
  | nil => simp
  | cons top rest =>
    rw [hstack] at hbelow
    refine forall_mem_cons.mpr ⟨?_, hbelow⟩
    cases top with
    | message => simp [System.inMessage, hstack] at hmessage
    | _ => rfl

theorem Inv.linkClosed (hmessage : system.inMessage = false) :
    Inv codec trusted (linkClosed system) := by
  have hnone := hinv.no_message hmessage
  have hclose : Inv codec trusted
      ⟨{ system.channel with state := .closed, held := none },
        .closed :: system.stack, system.promises, system.log ++ [Event.closed]⟩ := by
    refine ⟨hinv.orderly.append (by simp), ?_⟩
    simp only [observed_append, observe]
    refine ⟨hinv.fits.pending_eq, hinv.fits.handed_due, rfl, hnone, ?_, ?_⟩
    · intro hlive
      simp [ChannelState.isClosed] at hlive
    intro _
    exact forall_mem_cons.mpr ⟨rfl, hnone⟩
  rw [Link.linkClosed]
  cases system.channel.state with
  | closed => exact hinv
  | greeting | «open» => exact hclose

/-- A call on a channel that holds nothing back. -/
theorem Inv.push (hlive : system.channel.state.isClosed = false)
    (hheld : system.channel.held = none) (hmessage : system.inMessage = false)
    (hplain : frame.isPlain = true) : Inv codec trusted (system.push frame) := by
  obtain ⟨hframe, hrelease, hclosed⟩ := frame.isPlain_iff.mp hplain
  have hnone := hinv.no_message hmessage
  have hall : ∀ each ∈ frame :: system.stack, each.isMessage = false :=
    forall_mem_cons.mpr ⟨hframe, hnone⟩
  have hold := hinv.fits.live hlive
  refine ⟨hinv.orderly, hinv.fits.pending_eq, hinv.fits.handed_due,
    hinv.fits.closed_eq, hnone, fun _ => ⟨hold.opened_eq, hold.balanced,
      forall_mem_cons.mpr ⟨hclosed, hold.not_closed⟩, ?_, ?_⟩, fun _ => hall⟩
  · intro each heach htrue
    rw [hall each heach] at htrue
    simp at htrue
  obtain ⟨hwaiting, hpromises, hstack⟩ := (hheld ▸ hold.mode).of_none
  exact .idle hheld hwaiting hpromises (forall_mem_cons.mpr ⟨hrelease, hstack⟩)

variable {queued : List B}

/-- The peer's `hello` is accepted. -/
theorem Inv.opened (hstate : system.channel.state = .greeting queued)
    (hheld : system.channel.held = none) (peer : JsString) (calls : Nat) :
    Inv codec trusted (System.emit { system with
      channel := { system.channel with state := .open peer calls } } .opened) := by
  have hlive : system.channel.state.isClosed = false := by
    rw [hstate]
    rfl
  have hold := hinv.fits.live hlive
  refine ⟨hinv.orderly.append (by simp), ?_⟩
  simp only [System.emit, observed_append, observe]
  refine ⟨hinv.fits.pending_eq, hinv.fits.handed_due, ?_, hinv.fits.below,
    fun _ => ⟨rfl, hold.balanced, hold.not_closed, fun _ _ _ => rfl, ?_⟩, ?_⟩
  · rw [hinv.fits.closed_eq, hlive]
    rfl
  · obtain ⟨hwaiting, hpromises, hstack⟩ := (hheld ▸ hold.mode).of_none
    exact .idle hheld hwaiting hpromises hstack
  intro hdead
  simp [ChannelState.isClosed] at hdead

/-- The heartbeat's fields are of no account. -/
theorem Inv.stamp (lastReceived : Int) (pinged : Bool) :
    Inv codec trusted { system with channel := { system.channel with
      lastReceived := lastReceived, pinged := pinged } } := by
  have hfits := hinv.fits
  refine ⟨hinv.orderly, hfits.pending_eq, hfits.handed_due, hfits.closed_eq,
    hfits.below, fun hlive => ?_, hfits.dead⟩
  have hold := hfits.live hlive
  exact ⟨hold.opened_eq, hold.balanced, hold.not_closed, hold.message_open, hold.mode⟩

/-- An arrival that the log does not count as due. -/
theorem Inv.arrived (hopen : system.channel.state.isOpen = false) (bytes : B) :
    Inv codec trusted (system.emit (.arrived bytes)) := by
  have hseen : observe codec trusted (observed codec trusted system.log)
      (.arrived bytes) = observed codec trusted system.log := by
    rw [observe]
    split
    next hcounts =>
      rw [Bool.and_eq_true, Bool.not_eq_true'] at hcounts
      have hlive : system.channel.state.isClosed = false :=
        hinv.fits.closed_eq.symm.trans hcounts.2
      rw [(hinv.fits.live hlive).opened_eq, hopen] at hcounts
      simp at hcounts
    · rfl
  refine ⟨hinv.orderly.append (by simp), ?_⟩
  simp only [System.emit, observed_append, hseen]
  exact hinv.fits

theorem Inv.sendQueued {rest : List (Frame B)}
    (hstack : system.stack = frame :: rest) (hreport : frame.isReport = false) (queued : List B) :
    Inv codec trusted (sendQueued system.pop queued) := by
  cases queued with
  | nil => exact hinv.swap hstack .greetOpened rfl (by simp [hreport])
  | cons bytes queued =>
    exact (hinv.sent bytes).swap hstack (.greetSend queued) rfl (by simp [hreport])

/-- The first messages, while the channel waits for the peer's `hello`. -/
theorem Inv.greet (hstate : system.channel.state = .greeting queued)
    (hheld : system.channel.held = none) (hmessage : system.inMessage = false) (bytes : B) :
    Inv codec trusted (greet codec trusted system bytes queued).system := by
  have hlive : system.channel.state.isClosed = false := by
    rw [hstate]
    rfl
  have hfailed : Inv codec trusted (Link.failed system).system := by
    rw [Link.failed, hstate]
    exact hinv.reported.push hlive hheld hmessage rfl
  rw [Link.greet]
  split
  · split
    · have hopened := hinv.opened hstate hheld
      cases queued with
      | nil => exact (hopened _ _).push rfl hheld hmessage rfl
      | cons first rest =>
        exact ((hopened _ _).sent first).push rfl hheld hmessage rfl
    · exact hfailed
  · exact hfailed

/-- A message on an open channel that holds nothing back. -/
theorem Inv.handle (hopen : system.channel.state.isOpen = true)
    (hheld : system.channel.held = none) (hmessage : system.inMessage = false)
    (bytes : B) (now : Int) :
    Inv codec trusted (handle codec trusted (System.emit { system with
      channel := { system.channel with lastReceived := now, pinged := false } }
        (.arrived bytes)) bytes).system := by
  generalize hnext : System.emit { system with channel := { system.channel with
    lastReceived := now, pinged := false } } (.arrived bytes) = next
  have hlive := isClosed_of_isOpen hopen
  have hold := hinv.fits.live hlive
  have hnone := hinv.no_message hmessage
  obtain ⟨hwaiting, hpromises, hstack⟩ := (hheld ▸ hold.mode).of_none
  have horderly : Orderly codec trusted next.log := by
    rw [← hnext]
    exact hinv.orderly.append (by simp)
  have hlog : OpenLog (observed codec trusted next.log)
      (deliverable codec trusted bytes).toList := by
    have hbalanced := hold.balanced
    rw [hheld] at hbalanced
    have hopened := hold.opened_eq.trans hopen
    have hclosed := hinv.fits.closed_eq.trans hlive
    rw [← hnext]
    simp only [System.emit, observed_append, observe_arrived hopened hclosed]
    refine ⟨hinv.fits.pending_eq.trans hpromises, hopened, hclosed, ?_⟩
    simpa [heldBack] using hbalanced
  have hcall : ∀ {log : List (Event B)} {frame : Frame B},
      Orderly codec trusted log → OpenLog (observed codec trusted log) [] →
      frame.isRelease = false → frame.isClosed = false →
      Inv codec trusted ⟨next.channel, frame :: next.stack, next.promises, log⟩ := by
    intro log frame horderly hlog hrelease hclosed
    rw [← hnext]
    exact inv_open horderly (by simpa [heldBack, System.emit, hheld] using hlog)
      hopen hpromises hnone
      (forall_mem_cons.mpr ⟨hclosed, hold.not_closed⟩)
      (.idle hheld hwaiting hpromises (forall_mem_cons.mpr ⟨hrelease, hstack⟩))
  rcases handle_open (show next.channel.state.isOpen = true by
      rw [← hnext]; exact hopen) bytes with ⟨message, hsome, hhandle⟩ |
    ⟨hdeliver, hhandle | hhandle | ⟨answer, hhandle⟩⟩
  · rw [hsome] at hlog
    rw [hhandle]
    refine hcall (horderly.handed hlog message) ?_ rfl rfl
    rw [System.emit, observed_append]
    exact hlog.handed
  · rw [hdeliver] at hlog
    rw [hhandle]
    rw [← hnext] at horderly hlog ⊢
    exact inv_open horderly
      (by simpa [heldBack, System.emit, hheld, Outcome.system] using hlog)
      hopen hpromises hinv.fits.below hold.not_closed
      (.idle hheld hwaiting hpromises hstack)
  · rw [hdeliver] at hlog
    rw [hhandle]
    exact hcall (horderly.append (by simp))
      (by simpa [System.emit, observe] using hlog) rfl rfl
  rw [hdeliver] at hlog
  rw [hhandle]
  exact hcall (horderly.append (by simp))
    (by simpa [System.emit, observe] using hlog) rfl rfl

end

/-- A message behind a promise or behind the loop of `#release`. -/
theorem Inv.queue {system : System B} (hinv : Inv codec trusted system)
    (hlive : system.channel.state.isClosed = false) {held : Held B}
    (hheld : system.channel.held = some held) (bytes : B) (now : Int) :
    Inv codec trusted ⟨{ system.channel with
        lastReceived := now, pinged := false,
        held := some { held with queue := held.queue ++ [bytes] } },
      system.stack, system.promises, system.log ++ [Event.arrived bytes]⟩ := by
  have hold := hinv.fits.live hlive
  have hopen : system.channel.state.isOpen = true ∧
      held.next ≤ held.queue.length := by
    cases hold.mode with
    | idle hnone =>
      rw [hheld] at hnone
      simp at hnone
    | waiting queue hheld' hnext hwaiting hopen
    | releasing queue frame hheld' hnext hwaiting hopen =>
      cases hheld.symm.trans hheld'
      exact ⟨hopen, hnext⟩
  have hopened := hold.opened_eq.trans hopen.1
  have hclosed := hinv.fits.closed_eq.trans hlive
  have hback : heldBack codec trusted
      (some { held with queue := held.queue ++ [bytes] }) =
        heldBack codec trusted system.channel.held ++
          (deliverable codec trusted bytes).toList := by
    rw [hheld]
    simp only [heldBack]
    rw [drop_append_of_le_length hopen.2, filterMap_append]
    cases hdeliver : deliverable codec trusted bytes <;> simp [hdeliver]
  have hlength : held.next ≤ (held.queue ++ [bytes]).length := by
    rw [length_append]
    exact hopen.2.trans (Nat.le_add_right _ _)
  refine ⟨hinv.orderly.append (by simp), ?_⟩
  simp only [observed_append, observe_arrived hopened hclosed]
  refine ⟨hinv.fits.pending_eq, ?_, hinv.fits.closed_eq, hinv.fits.below,
    fun _ => ⟨hold.opened_eq, ?_, hold.not_closed, hold.message_open, ?_⟩,
    hinv.fits.dead⟩
  · exact hinv.fits.handed_due.trans (prefix_append _ _)
  · simp only
    rw [hback, ← append_assoc, hold.balanced]
  cases hold.mode with
  | idle hnone =>
    rw [hheld] at hnone
    simp at hnone
  | waiting queue hheld' hnext hwaiting hopen hpromises hstack hsettled =>
    exact .waiting _ rfl hlength hwaiting hopen hpromises hstack hsettled
  | releasing queue frame hheld' hnext hwaiting hopen hpromises hstack hframe =>
    exact .releasing _ frame rfl hlength hwaiting hopen hpromises hstack
      hframe

theorem Inv.receive (hinv : Inv codec trusted system)
    (hmessage : system.inMessage = false) (bytes : B) (now : Int) :
    Inv codec trusted (receive codec trusted system bytes now) := by
  rw [Link.receive]
  cases hstate : system.channel.state with
  | closed =>
    exact hinv.arrived (by rw [hstate]; rfl) bytes
  | greeting queued =>
    have harrived := (hinv.stamp now false).arrived
      (show system.channel.state.isOpen = false by rw [hstate]; rfl) bytes
    cases hheld : system.channel.held with
    | none =>
      simp only [System.emit, hheld]
      rw [Link.handle]
      have hgreet := harrived.greet hstate hheld hmessage bytes
      simpa [System.emit, hstate, hheld] using hgreet
    | some held =>
      simp only [System.emit, hheld]
      exact hinv.queue (by rw [hstate]; rfl) hheld bytes now
  | «open» peer calls =>
    cases hheld : system.channel.held with
    | none =>
      have hhandle := hinv.handle (by rw [hstate]; rfl) hheld hmessage bytes now
      simpa [System.emit, hheld] using hhandle
    | some held =>
      simp only [System.emit, hheld]
      exact hinv.queue (by rw [hstate]; rfl) hheld bytes now

theorem Inv.settled {system : System B} (hinv : Inv codec trusted system)
    (hstack : system.stack = []) (hpromises : 0 < system.promises) (fulfilled : Bool) :
    Inv codec trusted (settled codec trusted system fulfilled) := by
  have horderly : Orderly codec trusted (system.log ++ [Event.settled]) :=
    hinv.orderly.append (by simp)
  have hpending := hinv.fits.pending_eq
  by_cases hdead : system.channel.state.isClosed = true
  · have hquiet : ∀ {channel : Channel B} {stack : List (Frame B)},
        channel.state = system.channel.state → stack = [] →
        Inv codec trusted ⟨channel, stack, system.promises - 1,
          system.log ++ [Event.settled]⟩ := by
      rintro channel _ hstate rfl
      refine ⟨horderly, ?_⟩
      simp only [observed_append, observe]
      refine ⟨by rw [hpending], hinv.fits.handed_due, ?_, by simp, ?_, by simp⟩
      · rw [hinv.fits.closed_eq, hstate]
      rw [hstate, hdead]
      simp
    cases fulfilled with
    | true =>
      simp only [Link.settled, System.emit, ↓reduceIte]
      cases hheld : system.channel.held with
      | none => exact hquiet rfl hstack
      | some held =>
        generalize hnext : System.push _ _ = next
        obtain ⟨channel, hstate, heq⟩ := continueRelease_closed
          (show next.channel.state.isClosed = true by rw [← hnext]; exact hdead)
        rw [heq, ← hnext]
        rw [← hnext] at hstate
        exact hquiet hstate hstack
    | false =>
      cases hstate : system.channel.state with
      | greeting | «open» => simp [hstate, ChannelState.isClosed] at hdead
      | closed =>
        simp only [Link.settled, Link.failed, System.emit, hstate]
        exact hquiet rfl hstack
  have hlive : system.channel.state.isClosed = false := by simpa using hdead
  have hold := hinv.fits.live hlive
  cases hold.mode with
  | idle _ _ hzero | releasing _ _ _ _ _ _ hzero => omega
  | waiting held hheld hnext hwaiting hopen hone hnone hsettled =>
    have hpromises' : system.promises - 1 = 0 := by omega
    cases fulfilled with
    | true =>
      simp only [Link.settled, System.emit, ↓reduceIte, hheld, continueRelease, System.push]
      apply releaseLoop_inv
      refine ⟨horderly, ?_, hopen, hpromises', by rw [hstack], rfl, held,
        rfl, hnext, rfl⟩
      simp only [observed_append, observe]
      refine ⟨by simp only [hpending]; exact hpromises',
        hold.opened_eq.trans hopen, hinv.fits.closed_eq.trans hlive, ?_⟩
      have hbalanced := hold.balanced
      rwa [hheld] at hbalanced
    | false =>
      have hreport : Inv codec trusted ⟨system.channel, [.report],
          system.promises - 1, system.log ++ [Event.settled] ++ [Event.reported]⟩ := by
        refine ⟨horderly.append (by simp), ?_⟩
        simp only [observed_append, observe]
        refine ⟨by rw [hpending], hinv.fits.handed_due,
          hinv.fits.closed_eq, by simp, fun _ => ⟨hold.opened_eq,
            hold.balanced, ?_, fun _ _ _ => hopen, ?_⟩, ?_⟩
        · simp [Frame.isClosed]
        · refine .waiting held hheld hnext hwaiting hopen (by omega) ?_ ?_
          · simp [Frame.isRelease, Frame.isMessage]
          · exact fun _ => Or.inr ⟨.report, mem_cons_self, rfl⟩
        · simp [Frame.isMessage]
      obtain ⟨peer, calls, hstate⟩ := ChannelState.eq_open hopen
      simp only [Link.settled, Link.failed, System.emit, hstate,
        Bool.false_eq_true, ↓reduceIte, Outcome.system, System.push, hstack]
      exact hreport

section

variable (hinv : Inv codec trusted system)

include hinv

theorem Inv.tick (now paused ping close : Int) :
    Inv codec trusted (tick codec system now paused ping close) := by
  simp only [Link.tick]
  generalize (if 0 < paused then
    min (system.channel.lastReceived + paused) (now - ping)
    else system.channel.lastReceived) = lastReceived
  split
  · exact (hinv.stamp _ system.channel.pinged).closing
  split
  · split
    · exact (hinv.stamp _ true).sent _
    · exact hinv.stamp _ system.channel.pinged
  · exact hinv.stamp _ system.channel.pinged

theorem Inv.sendMessage (message : Message) :
    Inv codec trusted (sendMessage codec system message) := by
  rw [Link.sendMessage]
  cases hstate : system.channel.state with
  | closed => exact hinv
  | «open» => exact hinv.sent _
  | greeting queued =>
    have hfits := hinv.fits
    have hold := hfits.live (by rw [hstate]; rfl)
    have hopened := hold.opened_eq
    have hmessage := hold.message_open
    have hmode := hold.mode
    rw [hstate] at hopened hmessage hmode
    refine ⟨hinv.orderly, hfits.pending_eq, hfits.handed_due, ?_, hfits.below,
      fun _ => ⟨hopened, hold.balanced, hold.not_closed, hmessage, hmode⟩, ?_⟩
    · rw [hfits.closed_eq, hstate]
      rfl
    intro hdead
    simp [ChannelState.isClosed] at hdead

/-- `report` returned: the link is told to close. -/
theorem Inv.closes {rest : List (Frame B)} (hstack : system.stack = .report :: rest) :
    Inv codec trusted ((system.pop.emit .closing).push .close) :=
  hinv.closing.swap hstack .close rfl fun _ => by simp [System.emit, observe]

/-- `handler.closed` returned. -/
theorem Inv.afterClosed {rest : List (Frame B)} (hstack : system.stack = .closed :: rest) :
    Inv codec trusted system.pop := by
  by_cases hdead : system.channel.state.isClosed = true
  · exact hinv.shrink hdead rfl fun frame hframe => mem_of_mem_tail hframe
  have hclosed := (hinv.fits.live (by simpa using hdead)).not_closed .closed
    (by rw [hstack]; exact mem_cons_self)
  simp [Frame.isClosed] at hclosed

theorem Inv.step {next : System B} {input : Input B}
    (hstep : step codec trusted system input = some next) : Inv codec trusted next := by
  cases input with
  | deliver bytes now =>
    obtain ⟨hmessage, rfl⟩ := of_not_guard hstep
    exact hinv.receive (by simpa using hmessage) bytes now
  | linkClosed =>
    obtain ⟨hmessage, rfl⟩ := of_not_guard hstep
    exact hinv.linkClosed (by simpa using hmessage)
  | answer answer =>
    simp only [Link.step] at hstep
    split at hstep
    next rest hstack =>
      cases hstep
      exact hinv.answered hstack answer
    · simp at hstep
  | returns =>
    simp only [Link.step] at hstep
    split at hstep
    next queued rest hstack =>
      cases hstep
      exact hinv.sendQueued hstack rfl queued
    next rest hstack =>
      cases hstep
      exact hinv.resume hstack rfl
    next rest hstack =>
      cases hstep
      exact hinv.resume hstack rfl
    next rest hstack =>
      cases hstep
      exact hinv.resume hstack rfl
    next rest hstack =>
      cases hstep
      exact hinv.closes hstack
    next rest hstack =>
      cases hstep
      exact hinv.afterClosed hstack
    · simp at hstep
  | throws =>
    simp only [Link.step] at hstep
    split at hstep
    next queued rest hstack =>
      cases hstep
      exact hinv.failed hstack rfl
    next rest hstack =>
      cases hstep
      exact hinv.failed hstack rfl
    next rest hstack =>
      cases hstep
      exact hinv.failed hstack rfl
    · simp at hstep
  | settle fulfilled =>
    simp only [Link.step] at hstep
    split at hstep
    next hready =>
      rw [Bool.and_eq_true, List.isEmpty_iff, decide_eq_true_eq] at hready
      cases hstep
      exact hinv.settled hready.1 hready.2 fulfilled
    · simp at hstep
  | tick now paused ping close =>
    cases hstep
    exact hinv.tick now paused ping close
  | send message =>
    cases hstep
    exact hinv.sendMessage message
  | close =>
    cases hstep
    exact hinv.closing

end

end Hummin.Link
