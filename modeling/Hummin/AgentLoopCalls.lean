/-
Tool calls over a run: whatever the order of updates, outcomes and aborts, each call that is
started goes through its stages and ends before its response's turn does.
-/
import Hummin.AgentLoopMoves
import Hummin.AgentLoopTrace

namespace Hummin.AgentLoop

open List Option

universe u

variable {π : Type u}

/-- Calls are as far as the phase says. -/
def CallsOk (state : State π) : Prop :=
  match state.phase.answering with
  | some message => CallsAt state.turn message.calls state.phase.stages state.trace
  | none => CallsDone state.turn state.trace

theorem unkeyed_emitMessages (messages : List (Message π)) : unkeyed (messages.flatMap emitMessage) := by
  intro action haction
  obtain ⟨message, -, hmember⟩ := mem_flatMap.1 haction
  simp only [emitMessage, mem_cons, not_mem_nil, or_false] at hmember
  rcases hmember with rfl | rfl <;> rfl

theorem unkeyed_emitToolResultMessages (outcomes : List (Finalized π)) :
    unkeyed (outcomes.flatMap emitToolResultMessage) := by
  intro action haction
  obtain ⟨outcome, -, hmember⟩ := mem_flatMap.1 haction
  simp only [emitToolResultMessage, emitMessage, mem_cons, not_mem_nil, or_false] at hmember
  rcases hmember with rfl | rfl <;> rfl

variable {turn : Nat} {calls : List (ToolCall π)} {stages : List (Stage π)}
    {trace : List (Action π)}

/-- The next call of a batch is started. -/
theorem CallsAt.start
    (hcalls : CallsAt turn calls stages trace) {call : ToolCall π} (hcall : calls[stages.length]? = some call) :
    CallsAt turn calls (stages ++ [Stage.preparing])
      (trace ++ [Action.emit (.toolExecutionStart ⟨turn, stages.length⟩ call)]) := by
  apply @CallsAt.change π turn calls stages trace hcalls _ _ _ .preparing _ hcall
  · simp
  · intro other hother
    rcases Nat.lt_or_gt_of_ne hother with hlt | hgt
    · exact getElem?_append_left hlt
    · rw [getElem?_eq_none (by simp; omega), getElem?_eq_none (by omega)]
  · intro action haction
    obtain rfl := mem_singleton.1 haction
    exact .inl rfl
  rw [hcalls.unstarted stages.length (getElem?_eq_none le_rfl)]
  simp [Progress, callTrace, Action.key?]

/-- A batch with an outcome for every stage. -/
theorem stages_eq_finalized (hall : (stages.filterMap Stage.outcome?).length = stages.length) :
    stages = (stages.filterMap Stage.outcome?).map .finalized := by
  induction stages with
  | nil => rfl
  | cons stage rest ih =>
    rw [filterMap_cons] at hall ⊢
    have hle := length_filterMap_le Stage.outcome? rest
    rcases houtcome : stage.outcome? with _ | outcome
    · simp only [houtcome, length_cons] at hall
      omega
    simp only [houtcome, length_cons, Nat.add_right_cancel_iff] at hall
    have hstage : stage = .finalized outcome := by
      cases stage with
      | finalized other => exact congrArg Stage.finalized (some.inj houtcome)
      | _ => cases houtcome
    rw [hstage, map_cons]
    exact congrArg (Stage.finalized outcome :: ·) (ih hall)

/-- After a batch, its response's turn is finished. -/
theorem callsOk_finishCalls {state : State π} (hdone : CallsDone state.turn state.trace)
    (message : AssistantMessage π) (finalized : List (Finalized π)) (terminate : Bool) :
    CallsOk (finishCalls state message finalized terminate) :=
  hdone

variable {finalized : List (Finalized π)}

theorem callsOk_nextSequential {state : State π} {message : AssistantMessage π}
    {outcome : Finalized π}
    (hcalls : CallsAt state.turn message.calls ((finalized ++ [outcome]).map .finalized)
      (state.trace ++ [emitToolExecutionEnd ⟨state.turn, finalized.length⟩ outcome])) :
    CallsOk (nextSequential state message finalized outcome) := by
  have hresult : unkeyed (emitToolResultMessage outcome) := by
    have hone := unkeyed_emitToolResultMessages [outcome]
    rwa [flatMap_singleton] at hone
  have hemitted : CallsAt state.turn message.calls ((finalized ++ [outcome]).map .finalized)
      (state.trace ++ (emitToolExecutionEnd ⟨state.turn, finalized.length⟩ outcome ::
        emitToolResultMessage outcome)) := by
    have hmore := hcalls.unkeyed hresult
    rwa [append_assoc] at hmore
  have hdone : CallsDone state.turn (state.trace ++
      (emitToolExecutionEnd ⟨state.turn, finalized.length⟩ outcome :: emitToolResultMessage outcome)) := by
    apply hemitted.done
    intro stage hstage
    obtain ⟨other, -, rfl⟩ := mem_map.1 hstage
    exact ⟨other, rfl⟩
  rw [nextSequential]
  split
  · exact hdone
  split
  · exact hdone
  rename_i call hcall
  have hlength : ((finalized ++ [outcome]).map (Stage.finalized (π := π))).length =
      (finalized ++ [outcome]).length := length_map _
  have hstarted := hemitted.start (by rw [hlength]; exact hcall)
  rw [hlength] at hstarted
  exact hstarted

theorem callsOk_collectParallel {state : State π} {message : AssistantMessage π}
    (hcalls : CallsAt state.turn message.calls stages state.trace) :
    CallsOk (collectParallel state message stages) := by
  rw [collectParallel]
  split
  next hall =>
    have hdone : CallsDone state.turn state.trace := by
      apply hcalls.done
      intro stage hstage
      rw [stages_eq_finalized hall] at hstage
      obtain ⟨outcome, -, rfl⟩ := mem_map.1 hstage
      exact ⟨outcome, rfl⟩
    exact hdone.unkeyed (unkeyed_emitToolResultMessages _)
  · exact hcalls

theorem callsOk_nextParallel {state : State π} {message : AssistantMessage π}
    (hcalls : CallsAt state.turn message.calls stages state.trace) :
    CallsOk (nextParallel state message stages) := by
  rw [nextParallel]
  split
  · exact callsOk_collectParallel hcalls
  split
  · exact callsOk_collectParallel hcalls
  next call hcall =>
    exact hcalls.start hcall

/-! ### Truncated responses -/

/-- The actions of a call of a response that was cut off. -/
def failCall (turn : Nat) (entry : Finalized π × Nat) : List (Action π) :=
  [.emit (.toolExecutionStart ⟨turn, entry.2⟩ entry.1.call), .judged ⟨turn, entry.2⟩ .truncated,
    emitToolExecutionEnd ⟨turn, entry.2⟩ entry.1] ++ emitToolResultMessage entry.1

theorem callTrace_failCall (key : CallKey) (turn : Nat) (entry : Finalized π × Nat) :
    callTrace key (failCall turn entry) = if key = ⟨turn, entry.2⟩ then
      [.emit (.toolExecutionStart key entry.1.call), .judged key .truncated, emitToolExecutionEnd key entry.1]
    else [] := by
  split
  next hkey =>
    subst hkey
    simp [callTrace, failCall, Action.key?, emitToolExecutionEnd, emitToolResultMessage, emitMessage]
  rename_i hkey
  apply callTrace_eq_nil
  intro action haction
  simp only [failCall, emitToolResultMessage, emitMessage, emitToolExecutionEnd, mem_append, mem_cons,
    not_mem_nil, or_false] at haction
  rcases haction with (rfl | rfl | rfl) | rfl | rfl
  · exact fun hsame => hkey (some.inj hsame).symm
  · exact fun hsame => hkey (some.inj hsame).symm
  · exact fun hsame => hkey (some.inj hsame).symm
  · exact (some_ne_none key).symm
  · exact (some_ne_none key).symm

/-- Each failed call has its own three actions. -/
theorem callTrace_failCalls (key : CallKey) (turn : Nat) (finalized : List (Finalized π)) (offset : Nat) :
    callTrace key ((finalized.zipIdx offset).flatMap (failCall turn)) = [] ∨
      key.turn = turn ∧ offset ≤ key.index ∧ ∃ outcome,
        callTrace key ((finalized.zipIdx offset).flatMap (failCall turn)) =
          [.emit (.toolExecutionStart key outcome.call), .judged key .truncated, emitToolExecutionEnd key outcome] := by
  induction finalized generalizing offset with
  | nil => exact .inl rfl
  | cons outcome rest ih =>
    rw [zipIdx_cons, flatMap_cons, callTrace_append, callTrace_failCall]
    by_cases hkey : key = ⟨turn, offset⟩
    · rw [if_pos hkey]
      rcases ih (offset + 1) with hnone | ⟨-, hlater, -⟩
      · refine .inr ⟨by rw [hkey], by rw [hkey], outcome, ?_⟩
        rw [hnone, append_nil]
      rw [hkey] at hlater
      exact absurd hlater (Nat.not_succ_le_self offset)
    rw [if_neg hkey, nil_append]
    rcases ih (offset + 1) with hnone | ⟨hturn, hlater, hfound⟩
    · exact .inl hnone
    · exact .inr ⟨hturn, Nat.le_of_succ_le hlater, hfound⟩

theorem callsOk_failToolCalls {state : State π} {message : AssistantMessage π}
    (hcalls : CallsAt state.turn message.calls [] state.trace) :
    CallsOk (failToolCallsFromTruncatedMessage state message) := by
  have hfailed (key : CallKey) := callTrace_failCalls key state.turn
    (message.calls.map fun call => (⟨call, createErrorToolResult (truncatedText call), true⟩ : Finalized π)) 0
  rw [failToolCallsFromTruncatedMessage]
  apply callsOk_finishCalls
  constructor
  · intro key hkey
    show callTrace key (state.trace ++ flatMap (failCall state.turn) _) = []
    rw [callTrace_append, hcalls.later key hkey]
    rcases hfailed key with hnone | ⟨hturn, -⟩
    · exact hnone
    · exact absurd hturn (ne_of_gt hkey)
  intro key hkey
  have hbound : key.turn ≤ state.turn := hkey
  show callTrace key (state.trace ++ flatMap (failCall state.turn) _) = [] ∨
    ∃ call, CallRun key call (callTrace key (state.trace ++ flatMap (failCall state.turn) _))
  rw [callTrace_append]
  rcases hfailed key with hnone | ⟨hturn, -, outcome, hfound⟩
  · rw [hnone, append_nil]
    by_cases hsame : key.turn = state.turn
    · obtain ⟨turn, index⟩ := key
      obtain rfl : turn = state.turn := hsame
      exact .inl (hcalls.unstarted index rfl)
    · exact hcalls.earlier key (by omega)
  obtain ⟨turn, index⟩ := key
  obtain rfl : turn = state.turn := hturn
  rw [hfound, hcalls.unstarted index rfl]
  exact .inr ⟨outcome.call, .refused .truncated outcome.result outcome.isError⟩

/-! ### Responses -/

theorem callsOk_executeToolCalls {state : State π} {message : AssistantMessage π} {call : ToolCall π}
    (hcalls : CallsAt state.turn message.calls [] state.trace) (hcall : message.calls[0]? = some call)
    (sequential : Bool) : CallsOk (executeToolCalls sequential state message call) := by
  have hfirst : message.calls[([] : List (Stage π)).length]? = some call := hcall
  rw [executeToolCalls]
  split
  · exact hcalls.start hfirst
  · exact hcalls.start hfirst

theorem callsOk_endResponse {state : State π} (hdone : CallsDone state.turn state.trace) (sequential started : Bool)
    (message : AssistantMessage π) : CallsOk (endResponse sequential state started message) := by
  have hunkeyed : unkeyed (if started then [.emit (.messageEnd (.assistant message))]
      else emitMessage (.assistant message) : List (Action π)) := by
    intro action haction
    split at haction
    · obtain rfl := mem_singleton.1 haction
      rfl
    have hone := unkeyed_emitMessages [Message.assistant message]
    rw [flatMap_singleton] at hone
    exact hone action haction
  rw [endResponse]
  generalize (if started then [.emit (.messageEnd (.assistant message))]
    else emitMessage (.assistant message) : List (Action π)) = emitted at *
  have hnext := (hdone.unkeyed hunkeyed).next message.calls
  have hfinished := hnext.done fun stage hstage => by cases hstage
  split
  · exact hfinished
  split
  · exact hfinished
  rename_i call rest hcall
  split
  · exact callsOk_failToolCalls hnext
  · exact callsOk_executeToolCalls hnext (by rw [hcall]; rfl) sequential

/-! ### Moves -/

theorem callsOk_processPending [DecidableEq π] {state : State π} (hdone : CallsDone state.turn state.trace)
    (prepared : List (Message π)) : CallsOk (processPending state prepared) :=
  hdone.unkeyed (unkeyed_emitMessages _)

theorem CallsOk.done {state : State π} (hstate : CallsOk state) {phase : Phase π}
    (hphase : state.phase = phase) (hanswering : phase.answering = none) :
    CallsDone state.turn state.trace := by
  rw [CallsOk, hphase, hanswering] at hstate
  exact hstate

theorem CallsOk.at {state : State π} (hstate : CallsOk state) {message : AssistantMessage π}
    (hphase : state.phase.answering = some message) :
    CallsAt state.turn message.calls state.phase.stages state.trace := by
  rw [CallsOk, hphase] at hstate
  exact hstate

theorem unkeyed_singleton {event : Event π} (hevent : (Action.emit event).key? = none) : unkeyed [.emit event] := by
  intro action haction
  obtain rfl := mem_singleton.1 haction
  exact hevent

variable {before after : Stage π} {actions : List (Action π)}

/-- A call that waits or executes gets further with an action of its own. -/
theorem CallsAt.advance (hcalls : CallsAt turn calls stages trace) {index : Nat}
    (hstage : stages[index]? = some before)
    (hactions : ∀ action ∈ actions, action.key? = some ⟨turn, index⟩)
    (hprogress : ∀ call earlier, calls[index]? = some call → Progress ⟨turn, index⟩ call before earlier →
      Progress ⟨turn, index⟩ call after (earlier ++ actions)) :
    CallsAt turn calls (stages.set index after) (trace ++ actions) := by
  obtain ⟨call, hcall, hbefore⟩ := hcalls.started index before hstage
  have hlt : index < stages.length := (List.getElem?_eq_some_iff.1 hstage).1
  have hown : callTrace ⟨turn, index⟩ actions = actions := by
    rw [callTrace, filter_eq_self]
    intro action haction
    simpa using hactions action haction
  apply @CallsAt.change π turn calls stages trace hcalls _ _ index after call hcall
  · rw [getElem?_set_self hlt]
  · intro other hother
    exact getElem?_set_ne (Ne.symm hother)
  · exact fun action haction => .inl (hactions action haction)
  rw [hown]
  exact hprogress call _ hcall hbefore

theorem set_last (stages : List (Stage π)) (before after : Stage π) :
    (stages ++ [before]).set stages.length after = stages ++ [after] := by
  simp

theorem getElem?_last (stages : List (Stage π)) (stage : Stage π) :
    (stages ++ [stage])[stages.length]? = some stage := by
  simp

@[simp] theorem finalizeExecutedToolCall_call (call : ToolCall π) (result : ToolResult π) (isError : Bool)
    (after : After π) : (finalizeExecutedToolCall call result isError after).call = call := by
  cases after <;> rfl

/-- The last started call gets further. -/
theorem CallsAt.advanceLast {index : Nat}
    (hcalls : CallsAt turn calls (stages ++ [before]) trace) (hindex : stages.length = index)
    (hactions : ∀ action ∈ actions, action.key? = some ⟨turn, index⟩)
    (hprogress : ∀ call earlier, calls[index]? = some call → Progress ⟨turn, index⟩ call before earlier →
      Progress ⟨turn, index⟩ call after (earlier ++ actions)) :
    CallsAt turn calls (stages ++ [after]) (trace ++ actions) := by
  subst hindex
  have hnext := hcalls.advance (getElem?_last stages before) hactions hprogress
  rwa [set_last] at hnext

theorem CallsOk.sequential {state : State π} (hstate : CallsOk state) {message : AssistantMessage π}
    {stage : Stage π} (hphase : state.phase = .sequential message finalized stage) :
    CallsAt state.turn message.calls (finalized.map Stage.finalized ++ [stage]) state.trace := by
  rw [CallsOk, hphase] at hstate
  exact hstate

theorem CallsOk.preparingCalls {state : State π} (hstate : CallsOk state) {message : AssistantMessage π}
    (hphase : state.phase = .preparingCalls message stages) :
    CallsAt state.turn message.calls (stages ++ [Stage.preparing]) state.trace := by
  rw [CallsOk, hphase] at hstate
  exact hstate

theorem CallsOk.running {state : State π} (hstate : CallsOk state) {message : AssistantMessage π}
    (hphase : state.phase = .running message stages) :
    CallsAt state.turn message.calls stages state.trace := by
  rw [CallsOk, hphase] at hstate
  exact hstate

section Progress

variable {key : CallKey} {call : ToolCall π} {earlier : List (Action π)}

theorem Progress.refuse (hprogress : Progress key call .preparing earlier) (verdict : Verdict)
    (result : ToolResult π) (isError : Bool) :
    Progress key call (.finalized ⟨call, result, isError⟩)
      (earlier ++ [.judged key verdict, emitToolExecutionEnd key ⟨call, result, isError⟩]) := by
  obtain rfl := hprogress
  exact ⟨rfl, .refused verdict result isError⟩

theorem Progress.abandon (hprogress : Progress key call .waiting earlier) (result : ToolResult π) (isError : Bool) :
    Progress key call (.finalized ⟨call, result, isError⟩)
      (earlier ++ [emitToolExecutionEnd key ⟨call, result, isError⟩]) := by
  obtain rfl := hprogress
  exact ⟨rfl, .refused .ready result isError⟩

theorem Progress.execute (hprogress : Progress key call .waiting earlier) :
    Progress key call .executing (earlier ++ [Action.execute key]) := by
  obtain rfl := hprogress
  exact ⟨[], fun _ haction => (not_mem_nil haction).elim, rfl⟩

theorem Progress.settle (hprogress : Progress key call .executing earlier) (outcome : Outcome π) :
    Progress key call (executePreparedToolCall outcome) earlier := by
  cases outcome <;> exact hprogress

theorem Progress.finalize {result : ToolResult π} {isError : Bool}
    (hprogress : Progress key call (.finalizing result isError) earlier) (outcome : Finalized π)
    (hcall : outcome.call = call) :
    Progress key call (.finalized outcome) (earlier ++ [emitToolExecutionEnd key outcome]) := by
  obtain ⟨updates, hupdates, rfl⟩ := hprogress
  subst hcall
  exact ⟨rfl, .executed hupdates outcome.result outcome.isError⟩

end Progress

/-! ### Stages -/

section Stages

variable {state : State π} (hstate : CallsOk state) {message : AssistantMessage π} {call : ToolCall π}

include hstate

variable {finalized : List (Finalized π)}

theorem CallsOk.refusedSequential (hphase : state.phase = .sequential message finalized .preparing)
    (hcall : message.calls[finalized.length]? = some call) (verdict : Verdict) (result : ToolResult π) :
    CallsAt state.turn message.calls ((finalized ++ [(⟨call, result, true⟩ : Finalized π)]).map .finalized)
      (state.trace ++ [Action.judged ⟨state.turn, finalized.length⟩ verdict] ++
        [emitToolExecutionEnd ⟨state.turn, finalized.length⟩ ⟨call, result, true⟩]) := by
  rw [map_append, append_assoc]
  apply (hstate.sequential hphase).advanceLast (length_map _)
  · simp [Action.key?, emitToolExecutionEnd]
  intro other earlier hother hprogress
  cases hcall.symm.trans hother
  exact hprogress.refuse verdict result true

variable {result : ToolResult π}

theorem CallsOk.finalizedSequential {isError : Bool}
    (hphase : state.phase = .sequential message finalized (.finalizing result isError))
    (hcall : message.calls[finalized.length]? = some call) (after : After π) :
    CallsAt state.turn message.calls
      ((finalized ++ [finalizeExecutedToolCall call result isError after]).map .finalized)
      (state.trace ++ [emitToolExecutionEnd ⟨state.turn, finalized.length⟩
        (finalizeExecutedToolCall call result isError after)]) := by
  rw [map_append]
  apply (hstate.sequential hphase).advanceLast (length_map _)
  · simp [Action.key?, emitToolExecutionEnd]
  intro other earlier hother hprogress
  cases hcall.symm.trans hother
  exact hprogress.finalize _ (finalizeExecutedToolCall_call ..)

theorem CallsOk.prepared {stages : List (Stage π)} (hphase : state.phase = .preparingCalls message stages) :
    CallsAt state.turn message.calls (stages ++ [Stage.waiting])
      (state.trace ++ [Action.judged ⟨state.turn, stages.length⟩ .ready]) := by
  apply (hstate.preparingCalls hphase).advanceLast rfl
  · simp [Action.key?]
  rintro call earlier - rfl
  rfl

theorem CallsOk.refused {stages : List (Stage π)} (hphase : state.phase = .preparingCalls message stages)
    (hcall : message.calls[stages.length]? = some call) (verdict : Verdict) (result : ToolResult π) :
    CallsAt state.turn message.calls (stages ++ [Stage.finalized ⟨call, result, true⟩])
      (state.trace ++ [.judged ⟨state.turn, stages.length⟩ verdict,
        emitToolExecutionEnd ⟨state.turn, stages.length⟩ ⟨call, result, true⟩]) := by
  apply (hstate.preparingCalls hphase).advanceLast rfl
  · simp [Action.key?, emitToolExecutionEnd]
  intro other earlier hother hprogress
  cases hcall.symm.trans hother
  exact hprogress.refuse verdict result true

theorem CallsOk.abandoned {stages : List (Stage π)} {index : Nat} (hphase : state.phase = .running message stages)
    (hstage : stages[index]? = some .waiting) (hcall : message.calls[index]? = some call) (result : ToolResult π) :
    CallsAt state.turn message.calls (stages.set index (.finalized ⟨call, result, true⟩))
      (state.trace ++ [emitToolExecutionEnd ⟨state.turn, index⟩ ⟨call, result, true⟩]) := by
  apply (hstate.running hphase).advance hstage
  · simp [Action.key?, emitToolExecutionEnd]
  intro other earlier hother hprogress
  cases hcall.symm.trans hother
  exact hprogress.abandon result true

theorem CallsOk.finalizedParallel {stages : List (Stage π)} {index : Nat} {isError : Bool}
    (hphase : state.phase = .running message stages) (hstage : stages[index]? = some (.finalizing result isError))
    (hcall : message.calls[index]? = some call) (after : After π) :
    CallsAt state.turn message.calls
      (stages.set index (.finalized (finalizeExecutedToolCall call result isError after)))
      (state.trace ++ [emitToolExecutionEnd ⟨state.turn, index⟩
        (finalizeExecutedToolCall call result isError after)]) := by
  apply (hstate.running hphase).advance hstage
  · simp [Action.key?, emitToolExecutionEnd]
  intro other earlier hother hprogress
  cases hcall.symm.trans hother
  exact hprogress.finalize _ (finalizeExecutedToolCall_call ..)

end Stages

theorem callsOk_move [DecidableEq π] {sequential : Bool} {state next : State π} (hstate : CallsOk state)
    (hmove : Move sequential state next) : CallsOk next := by
  cases hmove with
  | abort => exact hstate
  | ignore => exact hstate
  | @update message index call partialResult hanswering hstage hcall =>
    have hcalls := hstate.at hanswering
    obtain ⟨other, hother, updates, hupdates, htrace⟩ := hcalls.started index .executing hstage
    obtain rfl := some.inj (hother.symm.trans hcall)
    have hnext : CallsAt state.turn message.calls state.phase.stages
        (state.trace ++ [Action.emit (.toolExecutionUpdate ⟨state.turn, index⟩ other partialResult)]) := by
      apply hcalls.change hcall hstage (fun _ _ => rfl) (by simp [Action.key?])
      refine ⟨updates ++ [Action.emit (.toolExecutionUpdate ⟨state.turn, index⟩ other partialResult)], ?_, ?_⟩
      · intro action haction
        rcases mem_append.1 haction with hold | hnew
        · exact hupdates action hold
        · exact ⟨partialResult, mem_singleton.1 hnew⟩
      rw [htrace, append_assoc]
      simp [callTrace, Action.key?]
    rw [CallsOk]
    show match state.phase.answering with | some message => _ | none => _
    rw [hanswering]
    exact hnext
  | first messages hphase =>
    apply callsOk_processPending
    exact hstate.done hphase rfl
  | prepareTurn context prepared hphase hpending =>
    apply callsOk_processPending
    exact (hstate.done hphase rfl).unkeyed (unkeyed_singleton rfl)
  | askAgain context prepared hphase hpending => exact hstate.done hphase rfl
  | steerAgain messages hphase =>
    apply callsOk_processPending
    exact (hstate.done hphase rfl).unkeyed (unkeyed_singleton rfl)
  | request context hphase => exact hstate.done hphase rfl
  | responseStart message hphase =>
    exact (hstate.done hphase rfl).unkeyed (unkeyed_singleton rfl)
  | responseUpdate message hphase =>
    have hupdate : unkeyed [Action.emit (.messageUpdate (.assistant message))] := unkeyed_singleton rfl
    have hdone := (hstate.done hphase rfl).unkeyed hupdate
    rw [CallsOk]
    show match state.phase.answering with | some message => _ | none => _
    rw [hphase]
    exact hdone
  | response message hphase =>
    exact callsOk_endResponse (hstate.done hphase rfl) sequential _ message
  | @executeSequential late message finalized call hphase hcall =>
    apply (hstate.sequential hphase).advanceLast (length_map _)
    · simp [Action.key?]
    rintro call earlier - rfl
    exact ⟨[], fun _ haction => (not_mem_nil haction).elim, rfl⟩
  | refuseSequential late verdict result hphase hcall =>
    apply callsOk_nextSequential
    exact hstate.refusedSequential hphase hcall verdict result
  | @settleSequential message finalized outcome hphase =>
    have hnext : CallsAt state.turn message.calls
        (finalized.map Stage.finalized ++ [executePreparedToolCall outcome]) (state.trace ++ []) := by
      apply (hstate.sequential hphase).advanceLast (length_map _) (forall_mem_nil _)
      intro call earlier _ hprogress
      rw [append_nil]
      exact hprogress.settle outcome
    rw [append_nil] at hnext
    exact hnext
  | finalizeSequential after hphase hcall =>
    apply callsOk_nextSequential
    exact hstate.finalizedSequential hphase hcall after
  | prepareParallel late hphase hcall =>
    apply callsOk_nextParallel
    exact hstate.prepared hphase
  | refuseParallel late verdict result hphase hcall =>
    apply callsOk_nextParallel
    exact hstate.refused hphase hcall verdict result
  | @launch message stages index hphase hstage =>
    apply (hstate.running hphase).advance hstage
    · simp [Action.key?]
    intro call earlier _ hprogress
    exact hprogress.execute
  | abandon result hphase hstage hcall =>
    apply callsOk_collectParallel
    exact hstate.abandoned hphase hstage hcall result
  | @settleParallel message stages index outcome hphase hstage =>
    have hnext : CallsAt state.turn message.calls (stages.set index (executePreparedToolCall outcome))
        (state.trace ++ []) := by
      apply (hstate.running hphase).advance hstage (forall_mem_nil _)
      intro call earlier _ hprogress
      rw [append_nil]
      exact hprogress.settle outcome
    rw [append_nil] at hnext
    exact hnext
  | finalizeParallel after hphase hstage hcall =>
    apply callsOk_collectParallel
    exact hstate.finalizedParallel hphase hstage hcall after
  | @finishTurn message toolResults hasMoreToolCalls decision hphase =>
    have hturn : unkeyed [Action.emit (.turnEnd message toolResults)] := unkeyed_singleton rfl
    have hdone := (hstate.done hphase rfl).unkeyed hturn
    rw [endTurn.eq_def]
    split
    · exact hdone.unkeyed (unkeyed_singleton rfl)
    cases decision with
    | «end» => exact hdone.unkeyed (unkeyed_singleton rfl)
    | _ => exact hdone
  | nextTurn messages hphase =>
    rcases hphase with ⟨more, explicit, hphase⟩ | ⟨explicit, hphase⟩
    · exact hstate.done hphase rfl
    · exact hstate.done hphase rfl
  | @stop more explicit hphase => exact hstate.done hphase rfl
  | @«end» explicit hphase =>
    exact (hstate.done hphase rfl).unkeyed (unkeyed_singleton rfl)

end Hummin.AgentLoop
