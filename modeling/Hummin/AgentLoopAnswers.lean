/-
Responses and their results: in the new messages a response is directly followed by the
results of its calls in order, by all of them unless the run was aborted.
-/
import Hummin.AgentLoopCalls
import Hummin.AgentLoopQueues
import Mathlib.Data.List.TakeWhile

namespace Hummin.AgentLoop

open List

universe u

open Provider (StopReason)

variable {π : Type u}

/-- The calls of a response that are answered; a failed response has none. -/
def AssistantMessage.answerable (message : AssistantMessage π) : List (ToolCall π) :=
  if message.stopReason = .error ∨ message.stopReason = .aborted then [] else message.calls

/-- Results of the first calls in their order, of all unless the run was aborted. -/
structure Answers (aborted : Bool) (calls : List (ToolCall π)) (results : List (ToolResultMessage π)) : Prop where
  inOrder : results.map (fun result => (result.toolCallId, result.toolName)) =
    (calls.take results.length).map fun call => (call.id, call.name)
  whole : aborted = false → results.length = calls.length

/-- Each response among the messages is directly followed by its results. -/
def Answered (aborted : Bool) : List (Message π) → Prop
  | [] => True
  | .assistant message :: rest =>
    (∃ results, rest.takeWhile Message.isToolResult = results.map .toolResult ∧
      Answers aborted message.answerable results) ∧ Answered aborted rest
  | _ :: rest => Answered aborted rest

variable {aborted : Bool} {calls : List (ToolCall π)}

theorem Answers.abort {results : List (ToolResultMessage π)}
    (hanswers : Answers aborted calls results) : Answers true calls results :=
  ⟨hanswers.inOrder, fun hfalse => by cases hfalse⟩

variable {messages : List (Message π)}

theorem Answered.abort (hanswered : Answered aborted messages) : Answered true messages := by
  induction messages with
  | nil => trivial
  | cons message rest ih =>
    cases message with
    | assistant message =>
      obtain ⟨⟨results, htaken, hanswers⟩, hrest⟩ := hanswered
      exact ⟨⟨results, htaken, hanswers.abort⟩, ih hrest⟩
    | _ => exact ih hanswered

theorem answered_of_no_response
    (hmessages : ∀ message ∈ messages, message.isAssistant = false) : Answered aborted messages := by
  induction messages with
  | nil => trivial
  | cons message rest ih =>
    have hrest := ih fun other hother => hmessages other (mem_cons_of_mem message hother)
    cases message with
    | assistant response => cases hmessages _ mem_cons_self
    | _ => exact hrest

variable {more : List (Message π)}

/-- Messages that do not begin with a result end a response's results. -/
theorem Answered.append (hmessages : Answered aborted messages)
    (hmore : Answered aborted more) (hhead : ∀ first ∈ more.head?, first.isToolResult = false) :
    Answered aborted (messages ++ more) := by
  have htake (rest : List (Message π)) :
      (rest ++ more).takeWhile Message.isToolResult = rest.takeWhile Message.isToolResult := by
    induction rest with
    | nil =>
      cases more with
      | nil => rfl
      | cons first others =>
        have hfirst := hhead first rfl
        simp [hfirst]
    | cons message rest ih => rw [cons_append, takeWhile_cons, takeWhile_cons, ih]
  induction messages with
  | nil => exact hmore
  | cons message rest ih =>
    cases message with
    | assistant response =>
      obtain ⟨⟨results, htaken, hanswers⟩, hrest⟩ := hmessages
      refine ⟨⟨results, ?_, hanswers⟩, ih hrest⟩
      exact (htake rest).trans htaken
    | _ => exact ih hmessages

theorem Answered.given (hmessages : Answered aborted messages)
    (hmore : ∀ message ∈ more, message.isGiven = true) : Answered aborted (messages ++ more) := by
  apply hmessages.append
  · apply answered_of_no_response
    intro message hmessage
    have hgiven := hmore message hmessage
    simp only [Message.isGiven, Bool.and_eq_true, Bool.not_eq_true'] at hgiven
    exact hgiven.1
  intro first hfirst
  have hgiven := hmore first (mem_of_mem_head? hfirst)
  simp only [Message.isGiven, Bool.and_eq_true, Bool.not_eq_true'] at hgiven
  exact hgiven.2

/-- A response and its results. -/
theorem Answered.turn {aborted : Bool} {messages : List (Message π)}
    (hmessages : Answered aborted messages)
    {message : AssistantMessage π} {results : List (ToolResultMessage π)}
    (hanswers : Answers aborted message.answerable results) :
    Answered aborted (messages ++ Message.assistant message :: results.map Message.toolResult) := by
  apply hmessages.append
  · refine ⟨⟨results, ?_, hanswers⟩, answered_of_no_response ?_⟩
    · rw [takeWhile_map]
      exact congrArg (map _) (takeWhile_eq_self_iff.2 fun _ _ => rfl)
    intro other hother
    obtain ⟨result, -, rfl⟩ := mem_map.1 hother
    rfl
  intro first hfirst
  cases hfirst
  rfl

/-- What `Answered` says of one response. -/
theorem Answered.results {aborted : Bool} {before after : List (Message π)}
    {message : AssistantMessage π}
    (hanswered : Answered aborted (before ++ .assistant message :: after)) :
    ∃ results rest, after = results.map .toolResult ++ rest ∧
      (∀ first ∈ rest.head?, first.isToolResult = false) ∧ Answers aborted message.answerable results := by
  induction before with
  | nil =>
    obtain ⟨⟨results, htaken, hanswers⟩, -⟩ := hanswered
    refine ⟨results, after.dropWhile Message.isToolResult, ?_, fun first hfirst => ?_, hanswers⟩
    · rw [← htaken, takeWhile_append_dropWhile]
    have hnot := head?_dropWhile_not Message.isToolResult after
    rw [hfirst] at hnot
    simpa using hnot
  | cons first rest ih =>
    cases first with
    | assistant response => exact ih hanswered.2
    | _ => exact ih hanswered

/-! ### States -/

/-- The new messages answer their responses, but for the one whose calls are under way. -/
structure AnswersOk (state : State π) : Prop where
  answered : ∀ message, state.phase.answering = some message → ∃ before,
    state.messages = before ++ [Message.assistant message] ∧ Answered state.aborted before ∧
      message.answerable = message.calls
  settled : state.phase.answering = none → Answered state.aborted state.messages
  whole : ∀ message stages, state.phase = .running message stages → state.aborted = false →
    stages.length = message.calls.length

/-- The last message is the response whose calls are under way. -/
def Answering (state : State π) (message : AssistantMessage π) : Prop :=
  ∃ before, state.messages = before ++ [Message.assistant message] ∧ Answered state.aborted before ∧
    message.answerable = message.calls

variable {state : State π} {message : AssistantMessage π}

theorem Answering.act (hanswering : Answering state message)
    (actions : List (Action π)) : Answering (state.act actions) message :=
  hanswering

theorem Answering.abortIf (hanswering : Answering state message)
    (late : Bool) : Answering (state.abortIf late) message := by
  obtain ⟨before, hmessages, hbefore, hanswerable⟩ := hanswering
  refine ⟨before, hmessages, ?_, hanswerable⟩
  cases late with
  | false =>
    show Answered (state.aborted || false) before
    rw [Bool.or_false]
    exact hbefore
  | true =>
    show Answered (state.aborted || true) before
    rw [Bool.or_true]
    exact hbefore.abort

theorem finalized_calls {turn : Nat} {calls : List (ToolCall π)} {finalized : List (Finalized π)}
    {trace : List (Action π)} (hcalls : CallsAt turn calls (finalized.map .finalized) trace) :
    finalized.length ≤ calls.length ∧ finalized.map (fun outcome => outcome.call) = calls.take finalized.length := by
  have hcall (index : Nat) (hindex : index < finalized.length) :
      calls[index]? = some finalized[index].call := by
    obtain ⟨call, hcall, hsame, -⟩ := hcalls.started index (.finalized finalized[index]) (by simp [hindex])
    rw [hsame]
    exact hcall
  have hle : finalized.length ≤ calls.length := by
    by_contra hmore
    have hnone := hcall calls.length (by omega)
    simp at hnone
  refine ⟨hle, ext_getElem? fun index => ?_⟩
  by_cases hindex : index < finalized.length
  · rw [getElem?_take_of_lt hindex, hcall index hindex]
    simp [hindex]
  · rw [getElem?_eq_none (by simp; omega), getElem?_eq_none (by simp; omega)]

variable {finalized : List (Finalized π)}

theorem answers_of_calls
    (hcalls : finalized.map (fun outcome => outcome.call) = calls.take finalized.length)
    (hwhole : aborted = false → finalized.length = calls.length) :
    Answers aborted calls (finalized.map createToolResultMessage) where
  inOrder := by
    rw [length_map, ← hcalls, map_map, map_map]
    rfl
  whole := by
    rw [length_map]
    exact hwhole

section

variable (hanswering : Answering state message)

include hanswering

/-- The results of the first calls end a batch. -/
theorem answersOk_finishCalls {finalized : List (Finalized π)}
    (hcalls : finalized.map (fun outcome => outcome.call) = message.calls.take finalized.length)
    (hwhole : state.aborted = false → finalized.length = message.calls.length) (terminate : Bool) :
    AnswersOk (finishCalls state message finalized terminate) where
  answered := fun _ hmessage => by cases hmessage
  settled := fun _ => by
    obtain ⟨before, hmessages, hbefore, hanswerable⟩ := hanswering
    have hturn := @Answered.turn π state.aborted before hbefore message (finalized.map createToolResultMessage)
      (by rw [hanswerable]; exact answers_of_calls hcalls hwhole)
    show Answered state.aborted (state.messages ++ _)
    rw [hmessages, append_assoc]
    exact hturn
  whole := fun _ _ hphase => by cases hphase

theorem answersOk_at {phase : Phase π} (hphase : phase.answering = some message)
    (hwhole : ∀ message stages, phase = .running message stages → state.aborted = false →
      stages.length = message.calls.length) : AnswersOk (state.at' phase) where
  answered := fun other hother => by
    cases hphase.symm.trans hother
    exact hanswering
  settled := fun hnone => by cases hphase.symm.trans hnone
  whole := hwhole

theorem answersOk_running {stages : List (Stage π)}
    (hwhole : state.aborted = false → stages.length = message.calls.length) :
    AnswersOk (state.at' (.running message stages)) := by
  apply answersOk_at hanswering rfl
  rintro _ _ ⟨⟩
  exact hwhole

theorem answersOk_nextSequential {outcome : Finalized π}
    (hcalls : (finalized ++ [outcome]).length ≤ message.calls.length ∧
      (finalized ++ [outcome]).map (fun outcome => outcome.call) =
        message.calls.take (finalized ++ [outcome]).length) :
    AnswersOk (nextSequential state message finalized outcome) := by
  rw [nextSequential]
  split
  next haborted =>
    apply answersOk_finishCalls (hanswering.act _) hcalls.2
    intro hnot
    have hfalse : state.aborted = false := hnot
    rw [hfalse] at haborted
    cases haborted
  split
  next hnone =>
    apply answersOk_finishCalls (hanswering.act _) hcalls.2
    intro _
    have hlength := getElem?_eq_none_iff.1 hnone
    exact le_antisymm hcalls.1 hlength
  · refine answersOk_at ?_ rfl ?_
    · exact hanswering
    · rintro _ _ ⟨⟩

variable {stages : List (Stage π)}

theorem answersOk_collectParallel (hcalls : CallsAt state.turn message.calls stages state.trace)
    (hwhole : state.aborted = false → stages.length = message.calls.length) :
    AnswersOk (collectParallel state message stages) := by
  rw [collectParallel]
  split
  next hall =>
    rw [stages_eq_finalized hall] at hcalls
    apply answersOk_finishCalls (hanswering.act _) (finalized_calls hcalls).2
    intro hnot
    rw [hall]
    exact hwhole hnot
  · exact answersOk_running hanswering hwhole

theorem answersOk_nextParallel (hcalls : CallsAt state.turn message.calls stages state.trace) :
    AnswersOk (nextParallel state message stages) := by
  rw [nextParallel]
  split
  next haborted =>
    apply answersOk_collectParallel hanswering hcalls
    intro hnot
    rw [hnot] at haborted
    cases haborted
  split
  next hnone =>
    apply answersOk_collectParallel hanswering hcalls
    intro _
    have hmore := getElem?_eq_none_iff.1 hnone
    by_contra hdiffer
    have hstage : stages[message.calls.length]? = some stages[message.calls.length] :=
      getElem?_eq_getElem (by omega)
    obtain ⟨call, hcall, -⟩ := hcalls.started _ _ hstage
    simp at hcall
  · refine answersOk_at ?_ rfl ?_
    · exact hanswering
    · rintro _ _ ⟨⟩

theorem answersOk_failToolCalls : AnswersOk (failToolCallsFromTruncatedMessage state message) := by
  have hlength : (message.calls.map fun call =>
      (⟨call, createErrorToolResult (truncatedText call), true⟩ : Finalized π)).length = message.calls.length :=
    length_map _
  rw [failToolCallsFromTruncatedMessage]
  apply answersOk_finishCalls (hanswering.act _)
  · rw [hlength, take_length, map_map]
    exact map_id _
  · exact fun _ => hlength

end

theorem answersOk_executeToolCalls (sequential : Bool) {state : State π}
    {message : AssistantMessage π} (hanswering : Answering state message) (call : ToolCall π) :
    AnswersOk (executeToolCalls sequential state message call) := by
  rw [executeToolCalls]
  split
  · refine answersOk_at ?_ rfl ?_
    · exact hanswering
    · rintro _ _ ⟨⟩
  refine answersOk_at ?_ rfl ?_
  · exact hanswering
  · rintro _ _ ⟨⟩

theorem answersOk_endResponse (sequential : Bool) {state : State π} (started : Bool)
    (message : AssistantMessage π) (hsettled : Answered state.aborted state.messages) :
    AnswersOk (endResponse sequential state started message) := by
  have hunanswered (hnone : message.answerable = []) :
      Answered state.aborted (state.messages ++ [Message.assistant message]) :=
    @Answered.turn π state.aborted state.messages hsettled message [] (by rw [hnone]; exact ⟨rfl, fun _ => rfl⟩)
  have hfinished (hnone : message.answerable = []) {next : State π} (haborted : next.aborted = state.aborted)
      (hmessages : next.messages = state.messages ++ [Message.assistant message])
      (hphase : next.phase = .finishing message [] false) : AnswersOk next := by
    refine ⟨fun other hother => ?_, fun _ => ?_, fun other stages hother => ?_⟩
    · rw [hphase] at hother
      cases hother
    · rw [haborted, hmessages]
      exact hunanswered hnone
    rw [hphase] at hother
    cases hother
  rw [endResponse]
  split
  next hfailed =>
    exact hfinished (if_pos hfailed) (by rfl) (by rfl) (by rfl)
  rename_i hfailed
  have hanswerable : message.answerable = message.calls := if_neg hfailed
  split
  next hnone =>
    exact hfinished (hanswerable.trans hnone) (by rfl) (by rfl) (by rfl)
  split
  · refine answersOk_failToolCalls ?_
    exact ⟨state.messages, rfl, hsettled, hanswerable⟩
  refine answersOk_executeToolCalls sequential ?_ _
  exact ⟨state.messages, rfl, hsettled, hanswerable⟩

variable {phase : Phase π}

theorem AnswersOk.settledAt (hstate : AnswersOk state)
    (hphase : state.phase = phase) (hanswering : phase.answering = none) {next : State π}
    (haborted : next.aborted = state.aborted) (hmessages : next.messages = state.messages)
    (hnext : next.phase.answering = none) : AnswersOk next where
  answered := fun message hmessage => by
    rw [hnext] at hmessage
    cases hmessage
  settled := fun _ => by
    rw [haborted, hmessages]
    exact hstate.settled (hphase ▸ hanswering)
  whole := fun message stages hrunning => by
    rw [hrunning] at hnext
    cases hnext

/-- Messages that are given join the settled ones. -/
theorem answersOk_processPending [DecidableEq π] {state : State π} {prepared : List (Message π)}
    (hsettled : Answered state.aborted state.messages) (hprepared : ∀ message ∈ prepared, message.isGiven = true)
    (hpending : ∀ message ∈ state.pending, message.isGiven = true) : AnswersOk (processPending state prepared) where
  answered := fun message hmessage => by cases hmessage
  settled := fun _ => by
    apply hsettled.given
    apply given_declareToolChanges
    intro message hmessage
    rcases mem_append.1 hmessage with hold | hnew
    · exact hprepared message hold
    · exact hpending message hnew
  whole := fun message stages hphase => by cases hphase

theorem AnswersOk.answeringAt {state : State π} (hstate : AnswersOk state)
    {message : AssistantMessage π} (hphase : state.phase = phase)
    (hmessage : phase.answering = some message) : Answering state message :=
  hstate.answered message (hphase ▸ hmessage)

theorem answersOk_move [DecidableEq π] {sequential : Bool} {state next : State π}
    (hstate : AnswersOk state)
    (hqueue : QueueOk state) (hcalls : CallsOk state) (hmove : Move sequential state next) : AnswersOk next := by
  cases hmove with
  | abort =>
    refine ⟨fun message hmessage => ?_, fun hnone => (hstate.settled hnone).abort, fun _ _ _ hfalse => ?_⟩
    · obtain ⟨before, hmessages, hbefore, hanswerable⟩ := hstate.answered message hmessage
      exact ⟨before, hmessages, hbefore.abort, hanswerable⟩
    · cases hfalse
  | ignore => exact hstate
  | update partialResult hanswering hstage hcall => exact ⟨hstate.answered, hstate.settled, hstate.whole⟩
  | first messages hphase =>
    refine answersOk_processPending ?_ ?_ ?_
    · exact hstate.settled (by rw [hphase]; rfl)
    · exact forall_mem_nil _
    · exact fun message hmessage => (given_toMessages .queued messages message hmessage).1
  | prepareTurn context prepared hphase hpending =>
    refine answersOk_processPending ?_ ?_ ?_
    · exact hstate.settled (by rw [hphase]; rfl)
    · exact fun message hmessage => (given_toMessages .prepared prepared message hmessage).1
    · exact fun message hmessage => (hqueue.pending message hmessage).1
  | askAgain context prepared hphase hpending =>
    exact hstate.settledAt hphase rfl (by rfl) (by rfl) (by rfl)
  | @steerAgain messages prepared hphase =>
    refine answersOk_processPending ?_ ?_ ?_
    · exact hstate.settled (by rw [hphase]; rfl)
    · exact fun message hmessage => (hqueue.prepared prepared hphase message hmessage).1
    · exact fun message hmessage => (given_toMessages .queued messages message hmessage).1
  | request context hphase =>
    exact hstate.settledAt hphase rfl (by rfl) (by rfl) (by rfl)
  | responseStart message hphase =>
    exact hstate.settledAt hphase rfl (by rfl) (by rfl) (by rfl)
  | responseUpdate message hphase => exact ⟨hstate.answered, hstate.settled, hstate.whole⟩
  | response message hphase => exact answersOk_endResponse sequential _ message (hstate.settled (by rw [hphase]; rfl))
  | @executeSequential late message finalized call hphase hcall =>
    have hanswering := hstate.answeringAt hphase rfl
    exact answersOk_at ((hanswering.act _).abortIf late) rfl (by rintro _ _ ⟨⟩)
  | @refuseSequential late message finalized call verdict result hphase hcall =>
    have hanswering := hstate.answeringAt hphase rfl
    refine answersOk_nextSequential ?_ ?_
    · exact (hanswering.act _).abortIf late
    · exact finalized_calls (hcalls.refusedSequential hphase hcall verdict result)
  | @settleSequential message finalized outcome hphase =>
    have hanswering := hstate.answeringAt hphase rfl
    exact answersOk_at hanswering rfl (by rintro _ _ ⟨⟩)
  | @finalizeSequential message finalized result isError call after hphase hcall =>
    have hanswering := hstate.answeringAt hphase rfl
    apply answersOk_nextSequential hanswering
    exact finalized_calls (hcalls.finalizedSequential hphase hcall after)
  | @prepareParallel late message stages call hphase hcall =>
    have hanswering := hstate.answeringAt hphase rfl
    refine answersOk_nextParallel ?_ ?_
    · exact (hanswering.act _).abortIf late
    · exact hcalls.prepared hphase
  | @refuseParallel late message stages call verdict result hphase hcall =>
    have hanswering := hstate.answeringAt hphase rfl
    refine answersOk_nextParallel ?_ ?_
    · exact (hanswering.act _).abortIf late
    · exact hcalls.refused hphase hcall verdict result
  | @launch message stages index hphase hstage =>
    have hanswering := hstate.answeringAt hphase rfl
    apply answersOk_running (hanswering.act _)
    rw [length_set]
    exact hstate.whole message stages hphase
  | @abandon message stages index call result hphase hstage hcall =>
    have hanswering := hstate.answeringAt hphase rfl
    apply answersOk_collectParallel (hanswering.act _) (hcalls.abandoned hphase hstage hcall result)
    rw [length_set]
    exact hstate.whole message stages hphase
  | @settleParallel message stages index outcome hphase hstage =>
    have hanswering := hstate.answeringAt hphase rfl
    apply answersOk_running hanswering
    rw [length_set]
    exact hstate.whole message stages hphase
  | @finalizeParallel message stages index result isError call after hphase hstage hcall =>
    have hanswering := hstate.answeringAt hphase rfl
    apply answersOk_collectParallel (hanswering.act _) (hcalls.finalizedParallel hphase hstage hcall after)
    rw [length_set]
    exact hstate.whole message stages hphase
  | @finishTurn message toolResults hasMoreToolCalls decision hphase =>
    have hnone : state.phase.answering = none := by
      rw [hphase]
      rfl
    rw [endTurn.eq_def]
    split
    · exact hstate.settledAt rfl hnone (by rfl) (by rfl) (by rfl)
    cases decision with
    | _ => exact hstate.settledAt rfl hnone (by rfl) (by rfl) (by rfl)
  | nextTurn messages hphase =>
    have hnone : state.phase.answering = none := by
      rcases hphase with ⟨more, explicit, hphase⟩ | ⟨explicit, hphase⟩
      · rw [hphase]
        rfl
      rw [hphase]
      rfl
    exact hstate.settledAt rfl hnone (by rfl) (by rfl) (by rfl)
  | stop hphase =>
    exact hstate.settledAt hphase rfl (by rfl) (by rfl) (by rfl)
  | «end» hphase =>
    exact hstate.settledAt hphase rfl (by rfl) (by rfl) (by rfl)

end Hummin.AgentLoop
