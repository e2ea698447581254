/-
The messages of a run: they are those of its events in order, and each response is followed by
the results of its calls.
-/
import Hummin.AgentLoopCalls

namespace Hummin.AgentLoop

open List

universe u

variable {π : Type u}

/-! ### Events -/

/-- The messages recorded by a trace, and whether one more is open. -/
structure Recorded (trace : List (Action π)) (messages : List (Message π)) (isOpen : Bool) : Prop where
  ends : messageEnds trace = messages
  scan : messageScan false trace = some isOpen

section Recorded

variable {trace : List (Action π)} {messages : List (Message π)} {isOpen : Bool}

theorem Recorded.quiet (hrecorded : Recorded trace messages isOpen) {actions : List (Action π)}
    (hactions : ∀ action ∈ actions, action.isOfMessage = false) : Recorded (trace ++ actions) messages isOpen where
  ends := by rw [messageEnds_append, messageEnds_of_not hactions, append_nil, hrecorded.ends]
  scan := by rw [messageScan_append, hrecorded.scan]; exact messageScan_of_not hactions isOpen

theorem Recorded.emit (hrecorded : Recorded trace messages false) (more : List (Message π)) :
    Recorded (trace ++ more.flatMap emitMessage) (messages ++ more) false where
  ends := by rw [messageEnds_append, messageEnds_emitMessages, hrecorded.ends]
  scan := by rw [messageScan_append, hrecorded.scan]; exact messageScan_emitMessages more

end Recorded

/-- Results that are emitted but not yet among the new messages. -/
def Phase.inFlight : Phase π → List (Message π)
  | .sequential _ finalized _ => finalized.map fun outcome => .toolResult (createToolResultMessage outcome)
  | _ => []

def Phase.isOpen : Phase π → Bool
  | .streaming started => started
  | _ => false

def EventsOk (state : State π) : Prop :=
  Recorded state.trace (state.messages ++ state.phase.inFlight) state.phase.isOpen

theorem emitToolResultMessages_eq (finalized : List (Finalized π)) :
    finalized.flatMap emitToolResultMessage =
      (finalized.map fun outcome => Message.toolResult (createToolResultMessage outcome)).flatMap emitMessage := by
  rw [flatMap_map]
  rfl

variable {state : State π}

theorem eventsOk_nextSequential {message : AssistantMessage π} {finalized : List (Finalized π)}
    (outcome : Finalized π) (hrecorded : Recorded state.trace
      (state.messages ++ finalized.map fun outcome => Message.toolResult (createToolResultMessage outcome)) false) :
    EventsOk (nextSequential state message finalized outcome) := by
  have hend : Recorded (state.trace ++ [emitToolExecutionEnd ⟨state.turn, finalized.length⟩ outcome])
      (state.messages ++ finalized.map fun outcome => Message.toolResult (createToolResultMessage outcome)) false :=
    hrecorded.quiet (by simp [emitToolExecutionEnd, Action.isOfMessage, Action.isMessageStart, Action.isMessageEnd])
  have hresult : Recorded
      (state.trace ++ (emitToolExecutionEnd ⟨state.turn, finalized.length⟩ outcome :: emitToolResultMessage outcome))
      (state.messages ++ (finalized ++ [outcome]).map fun outcome => Message.toolResult (createToolResultMessage outcome))
      false := by
    have hmore := hend.emit [.toolResult (createToolResultMessage outcome)]
    rw [append_assoc, append_assoc] at hmore
    rw [map_append]
    exact hmore
  have hdone (terminate : Bool) : EventsOk (finishCalls
      (state.act (emitToolExecutionEnd ⟨state.turn, finalized.length⟩ outcome :: emitToolResultMessage outcome))
      message (finalized ++ [outcome]) terminate) := by
    rw [EventsOk, finishCalls, map_map]
    show Recorded _ (state.messages ++ _ ++ []) false
    rw [append_nil]
    exact hresult
  rw [nextSequential]
  split
  · exact hdone _
  split
  · exact hdone _
  · exact hresult.quiet (by simp [Action.isOfMessage, Action.isMessageStart, Action.isMessageEnd])

variable (message : AssistantMessage π)

theorem eventsOk_collectParallel (stages : List (Stage π))
    (hrecorded : Recorded state.trace state.messages false) : EventsOk (collectParallel state message stages) := by
  rw [collectParallel]
  split
  · have hmore := hrecorded.emit ((stages.filterMap Stage.outcome?).map fun outcome =>
      .toolResult (createToolResultMessage outcome))
    rw [← emitToolResultMessages_eq] at hmore
    rw [EventsOk, finishCalls, map_map]
    show Recorded _ (state.messages ++ _ ++ []) false
    rw [append_nil]
    exact hmore
  rw [EventsOk]
  show Recorded _ (state.messages ++ []) false
  rw [append_nil]
  exact hrecorded

theorem eventsOk_nextParallel (stages : List (Stage π))
    (hrecorded : Recorded state.trace state.messages false) : EventsOk (nextParallel state message stages) := by
  rw [nextParallel]
  split
  · exact eventsOk_collectParallel message stages hrecorded
  split
  · exact eventsOk_collectParallel message stages hrecorded
  rw [EventsOk]
  show Recorded _ (state.messages ++ []) false
  rw [append_nil]
  exact hrecorded.quiet (by simp [Action.isOfMessage, Action.isMessageStart, Action.isMessageEnd])

theorem eventsOk_processPending [DecidableEq π] {state : State π}
    (hrecorded : Recorded state.trace state.messages false) (prepared : List (Message π)) :
    EventsOk (processPending state prepared) := by
  rw [EventsOk]
  show Recorded _ (state.messages ++ _ ++ []) false
  rw [append_nil]
  exact hrecorded.emit _

theorem recorded_failCalls {trace : List (Action π)} {messages : List (Message π)}
    (hrecorded : Recorded trace messages false) (turn : Nat) (finalized : List (Finalized π)) (offset : Nat) :
    Recorded (trace ++ (finalized.zipIdx offset).flatMap (failCall turn))
      (messages ++ finalized.map fun outcome => Message.toolResult (createToolResultMessage outcome)) false := by
  induction finalized generalizing trace messages offset with
  | nil =>
    rw [zipIdx_nil, flatMap_nil, map_nil, append_nil, append_nil]
    exact hrecorded
  | cons outcome rest ih =>
    have hquiet : Recorded (trace ++ [.emit (.toolExecutionStart ⟨turn, offset⟩ outcome.call),
        .judged ⟨turn, offset⟩ .truncated, emitToolExecutionEnd ⟨turn, offset⟩ outcome]) messages false :=
      hrecorded.quiet (by
        simp [emitToolExecutionEnd, Action.isOfMessage, Action.isMessageStart, Action.isMessageEnd])
    have hone := hquiet.emit [.toolResult (createToolResultMessage outcome)]
    have hrest := ih hone (offset + 1)
    rw [append_assoc, append_assoc, append_assoc] at hrest
    rw [zipIdx_cons, flatMap_cons, map_cons]
    exact hrest

theorem eventsOk_failToolCalls (hrecorded : Recorded state.trace state.messages false) :
    EventsOk (failToolCallsFromTruncatedMessage state message) := by
  have hmore := recorded_failCalls hrecorded state.turn
    (message.calls.map fun call => ⟨call, createErrorToolResult (truncatedText call), true⟩) 0
  rw [EventsOk, failToolCallsFromTruncatedMessage, finishCalls]
  simp only [map_map] at hmore ⊢
  show Recorded _ (state.messages ++ _ ++ []) false
  rw [append_nil]
  exact hmore

theorem eventsOk_executeToolCalls (sequential : Bool) {state : State π}
    (message : AssistantMessage π)
    (call : ToolCall π) (hrecorded : Recorded state.trace state.messages false) :
    EventsOk (executeToolCalls sequential state message call) := by
  have hstarted : Recorded (state.trace ++ [Action.emit (.toolExecutionStart ⟨state.turn, 0⟩ call)])
      (state.messages ++ []) false := by
    rw [append_nil]
    exact hrecorded.quiet (by simp [Action.isOfMessage, Action.isMessageStart, Action.isMessageEnd])
  rw [executeToolCalls]
  split
  · exact hstarted
  · exact hstarted

theorem eventsOk_endResponse (sequential : Bool) {state : State π} {started : Bool}
    (message : AssistantMessage π) (hrecorded : Recorded state.trace state.messages started) :
    EventsOk (endResponse sequential state started message) := by
  have hadded : Recorded (state.trace ++ (if started then [.emit (.messageEnd (.assistant message))]
      else emitMessage (.assistant message))) (state.messages ++ [Message.assistant message]) false := by
    cases started with
    | true =>
      refine ⟨?_, ?_⟩
      · rw [messageEnds_append, hrecorded.ends]
        rfl
      rw [messageScan_append, hrecorded.scan]
      rfl
    | false =>
      have hmore := hrecorded.emit [.assistant message]
      rw [flatMap_singleton] at hmore
      exact hmore
  rw [endResponse]
  generalize (if started then [.emit (.messageEnd (.assistant message))]
    else emitMessage (.assistant message) : List (Action π)) = emitted at *
  have hfinished : Recorded (state.trace ++ emitted) (state.messages ++ [Message.assistant message] ++ []) false := by
    rw [append_nil]
    exact hadded
  split
  · exact hfinished
  split
  · exact hfinished
  split
  · exact eventsOk_failToolCalls message hadded
  · exact eventsOk_executeToolCalls sequential message _ hadded

theorem EventsOk.recorded (hstate : EventsOk state) {phase : Phase π} (hphase : state.phase = phase)
    (hflight : phase.inFlight = []) : Recorded state.trace state.messages phase.isOpen := by
  rw [EventsOk, hphase, hflight, append_nil] at hstate
  exact hstate

theorem EventsOk.closed (hstate : EventsOk state) {phase : Phase π} (hphase : state.phase = phase)
    (hflight : phase.inFlight = []) (hopen : phase.isOpen = false) :
    Recorded state.trace state.messages false :=
  hopen ▸ hstate.recorded hphase hflight

/-- Nothing but the phase changes, and no message is open or in flight. -/
theorem Recorded.eventsOk (hrecorded : Recorded state.trace state.messages false)
    (hflight : state.phase.inFlight = []) (hopen : state.phase.isOpen = false) : EventsOk state := by
  rw [EventsOk, hflight, hopen, append_nil]
  exact hrecorded

theorem quiet_keyed {actions : List (Action π)}
    (hactions : ∀ action ∈ actions, action.key?.isSome = true) :
    ∀ action ∈ actions, action.isOfMessage = false := by
  intro action haction
  have hkey := hactions action haction
  cases action with
  | emit event => cases event with
    | toolExecutionStart => rfl
    | toolExecutionUpdate => rfl
    | toolExecutionEnd => rfl
    | _ => cases hkey
  | _ => rfl

theorem quiet_singleton {action : Action π} (haction : action.isOfMessage = false) :
    ∀ other ∈ [action], other.isOfMessage = false := by
  intro other hother
  obtain rfl := mem_singleton.1 hother
  exact haction

theorem eventsOk_move [DecidableEq π] {sequential : Bool} {state next : State π}
    (hstate : EventsOk state) (hmove : Move sequential state next) : EventsOk next := by
  cases hmove with
  | abort => exact hstate
  | ignore => exact hstate
  | update partialResult hanswering hstage hcall => exact Recorded.quiet hstate (quiet_singleton rfl)
  | first messages hphase =>
    apply eventsOk_processPending
    exact hstate.closed hphase rfl rfl
  | prepareTurn context prepared hphase hpending =>
    apply eventsOk_processPending
    exact (hstate.closed hphase rfl rfl).quiet (quiet_singleton rfl)
  | askAgain context prepared hphase hpending =>
    exact Recorded.eventsOk (hstate.closed hphase rfl rfl) rfl rfl
  | steerAgain messages hphase =>
    apply eventsOk_processPending
    exact (hstate.closed hphase rfl rfl).quiet (quiet_singleton rfl)
  | request context hphase =>
    exact Recorded.eventsOk (hstate.closed hphase rfl rfl) rfl rfl
  | responseStart message hphase =>
    have hrecorded := hstate.closed hphase rfl rfl
    refine ⟨?_, ?_⟩
    · show messageEnds (state.trace ++ _) = state.messages ++ []
      rw [messageEnds_append, hrecorded.ends]
      rfl
    show messageScan false (state.trace ++ _) = some true
    rw [messageScan_append, hrecorded.scan]
    rfl
  | responseUpdate message hphase =>
    have hrecorded : Recorded state.trace state.messages true :=
      hstate.recorded hphase rfl
    rw [EventsOk]
    show Recorded (state.trace ++ _) (state.messages ++ state.phase.inFlight) state.phase.isOpen
    rw [hphase]
    refine ⟨?_, ?_⟩
    · rw [messageEnds_append, hrecorded.ends]
      rfl
    rw [messageScan_append, hrecorded.scan]
    rfl
  | response message hphase =>
    apply eventsOk_endResponse
    exact hstate.recorded hphase rfl
  | executeSequential late hphase hcall =>
    rw [EventsOk, hphase] at hstate
    exact hstate.quiet (quiet_keyed (by simp [Action.key?]))
  | refuseSequential late verdict result hphase hcall =>
    rw [EventsOk, hphase] at hstate
    exact eventsOk_nextSequential _ (hstate.quiet (quiet_singleton rfl))
  | settleSequential outcome hphase =>
    rw [EventsOk, hphase] at hstate
    exact hstate
  | finalizeSequential after hphase hcall =>
    rw [EventsOk, hphase] at hstate
    exact eventsOk_nextSequential _ hstate
  | prepareParallel late hphase hcall =>
    apply eventsOk_nextParallel
    exact (hstate.closed hphase rfl rfl).quiet (quiet_singleton rfl)
  | refuseParallel late verdict result hphase hcall =>
    apply eventsOk_nextParallel
    apply (hstate.closed hphase rfl rfl).quiet
    exact quiet_keyed (by simp [Action.key?, emitToolExecutionEnd])
  | launch hphase hstage =>
    have hrecorded := hstate.closed hphase rfl rfl
    exact Recorded.eventsOk (hrecorded.quiet (quiet_singleton rfl)) rfl rfl
  | abandon result hphase hstage hcall =>
    apply eventsOk_collectParallel
    exact (hstate.closed hphase rfl rfl).quiet (quiet_singleton rfl)
  | settleParallel outcome hphase hstage =>
    exact Recorded.eventsOk (hstate.closed hphase rfl rfl) rfl rfl
  | finalizeParallel after hphase hstage hcall =>
    apply eventsOk_collectParallel
    exact (hstate.closed hphase rfl rfl).quiet (quiet_singleton rfl)
  | @finishTurn message toolResults hasMoreToolCalls decision hphase =>
    have hrecorded := hstate.closed hphase rfl rfl
    have hturn := hrecorded.quiet (@quiet_singleton π (.emit (.turnEnd message toolResults)) rfl)
    have hended := hturn.quiet (@quiet_singleton π (.emit (.agentEnd state.messages)) rfl)
    rw [endTurn.eq_def]
    split
    · exact Recorded.eventsOk hended rfl rfl
    cases decision with
    | «end» => exact Recorded.eventsOk hended rfl rfl
    | _ => exact Recorded.eventsOk hturn rfl rfl
  | nextTurn messages hphase =>
    have hnone : state.phase.inFlight = [] ∧ state.phase.isOpen = false := by
      rcases hphase with ⟨more, explicit, hphase⟩ | ⟨explicit, hphase⟩
      · rw [hphase]
        exact ⟨rfl, rfl⟩
      rw [hphase]
      exact ⟨rfl, rfl⟩
    exact Recorded.eventsOk (hstate.closed rfl hnone.1 hnone.2) rfl rfl
  | stop hphase => exact Recorded.eventsOk (hstate.closed hphase rfl rfl) rfl rfl
  | «end» hphase =>
    have hrecorded := hstate.closed hphase rfl rfl
    exact Recorded.eventsOk (hrecorded.quiet (quiet_singleton rfl)) rfl rfl

end Hummin.AgentLoop
