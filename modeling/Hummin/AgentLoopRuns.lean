/-
Runs of the agent loop: whatever the responses, the outcomes of tools, the hooks, the queued
messages and the time of an abort, a run that has ended is well formed.
-/
import Hummin.AgentLoopAnswers
import Hummin.AgentLoopTurns

namespace Hummin.AgentLoop

open List

universe u

variable {π : Type u}

/-- The ways a run is started. -/
def Starts [DecidableEq π] (start : State π) : Prop :=
  (∃ prompts context, start = runAgentLoop prompts context) ∨ ∃ context, runAgentLoopContinue context = some start

/-- A run that has ended: its messages are those of the `message_end` events, each after a start
of its own; responses are answered in order; calls that were started have ended; and what was
taken from the queues is among the messages once, in order. -/
structure WellFormed (state : State π) : Prop where
  ends : messageEnds state.trace = state.messages
  opened : ∀ (before : List (Action π)) message after, state.trace = before ++ Action.emit (.messageEnd message) :: after →
    before.countP Action.isMessageStart = before.countP Action.isMessageEnd + 1
  answered : ∀ before (message : AssistantMessage π) after,
    state.messages = before ++ Message.assistant message :: after →
    message.stopReason ≠ .error → message.stopReason ≠ .aborted → ∃ results, ∃ rest : List (Message π),
      after = results.map Message.toolResult ++ rest ∧ (∀ first ∈ rest.head?, first.isToolResult = false) ∧
      Answers state.aborted message.calls results
  calls : ∀ key, callTrace key state.trace = [] ∨ ∃ call, CallRun key call (callTrace key state.trace)
  queued : queuedOf state.messages = state.taken.map Message.withoutTools

/-- What every step keeps. -/
structure Sound (state : State π) : Prop where
  calls : CallsOk state
  events : EventsOk state
  queue : QueueOk state
  answers : AnswersOk state

theorem sound_step [DecidableEq π] (sequential : Bool) {state next : State π} {input : Input π}
    (hstate : Sound state) (hstep : step sequential state input = some next) : Sound next := by
  have hmove := move_of_step hstep
  refine ⟨?_, ?_, ?_, ?_⟩
  · exact callsOk_move hstate.calls hmove
  · exact eventsOk_move hstate.events hmove
  · exact queueOk_move hstate.queue hmove
  · exact answersOk_move hstate.answers hstate.queue hstate.calls hmove

/-- Given messages that are not queued begin a run. -/
theorem sound_begun (context : Context π) {messages : List (Message π)}
    (hgiven : ∀ message ∈ messages, message.isGiven = true) (hqueued : queuedOf messages = []) :
    Sound (addMessages ⟨context, [], [], 0, false, .steering, [.emit .agentStart, .emit .turnStart], []⟩ messages) := by
  have hstarted : CallsDone 0 ([.emit .agentStart, .emit .turnStart] : List (Action π)) :=
    ⟨fun _ _ => rfl, fun _ _ => .inl rfl⟩
  have hopened : Recorded ([.emit .agentStart, .emit .turnStart] : List (Action π)) [] false := ⟨rfl, rfl⟩
  refine ⟨?_, ?_, ?_, ?_⟩
  · exact hstarted.unkeyed (unkeyed_emitMessages messages)
  · show Recorded _ (messages ++ []) false
    rw [append_nil]
    exact hopened.emit messages
  · refine ⟨fun _ => rfl, forall_mem_nil _, ?_, ?_⟩
    · exact nofun
    show queuedOf ([] ++ messages) ++ queuedOf [] = []
    rw [nil_append, hqueued]
    rfl
  refine ⟨?_, fun _ => ?_, ?_⟩
  · exact nofun
  · show Answered false ([] ++ messages)
    apply Answered.given
    · trivial
    · exact hgiven
  · exact nofun

theorem sound_start [DecidableEq π] {start : State π} (hstart : Starts start) : Sound start := by
  rcases hstart with ⟨prompts, context, rfl⟩ | ⟨context, hcontinue⟩
  · have hprompts := given_toMessages .prompt prompts
    apply sound_begun context
    · exact given_declareToolChanges context fun message hmessage => (hprompts message hmessage).1
    rw [queuedOf_declareToolChanges]
    exact queuedOf_of_none fun message hmessage => (hprompts message hmessage).2
  have hbegun := sound_begun context (forall_mem_nil fun message : Message π => message.isGiven = true) rfl
  rw [runAgentLoopContinue] at hcontinue
  split at hcontinue
  · cases hcontinue
  obtain ⟨-, rfl⟩ := of_not_guard hcontinue
  rw [addMessages] at hbegun
  simpa only [flatMap_nil, append_nil, State.act] using hbegun

theorem Sound.wellFormed {state : State π} (hstate : Sound state) (hended : state.phase = .ended) :
    WellFormed state := by
  have hrecorded := hstate.events.closed hended rfl rfl
  have hnone : state.phase.answering = none := by
    rw [hended]
    rfl
  refine ⟨hrecorded.ends, ?_, ?_, ?_, ?_⟩
  · intro before message after hsplit
    exact start_before_end hrecorded.scan hsplit
  · intro before message after hsplit herror haborted
    have hsettled := hstate.answers.settled hnone
    rw [hsplit] at hsettled
    have hresults := hsettled.results
    rw [AssistantMessage.answerable, if_neg (by simp [herror, haborted])] at hresults
    exact hresults
  · intro key
    have hdone := hstate.calls.done rfl hnone
    rcases Nat.lt_or_ge state.turn key.turn with hlater | hearlier
    · exact .inl (hdone.later key hlater)
    · exact hdone.earlier key hearlier
  have htaken := hstate.queue.taken
  rw [hstate.queue.cleared (by rw [hended]; exact fun hphase => by cases hphase)] at htaken
  rw [← htaken]
  exact (append_nil _).symm

end Hummin.AgentLoop
