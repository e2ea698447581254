/-
The moves of the agent loop: everything a step can do, with the phase it is done in.
-/
import Hummin.AgentLoop
import Hummin.Machine

namespace Hummin.AgentLoop

open Option

universe u

variable {π : Type u}

/-- The response whose calls are under way. -/
def Phase.answering : Phase π → Option (AssistantMessage π)
  | .sequential message .. => some message
  | .preparingCalls message _ => some message
  | .running message _ => some message
  | _ => none

inductive Move [DecidableEq π] (sequential : Bool) (state : State π) : State π → Prop
  | abort : Move sequential state { state with aborted := true }
  | ignore : Move sequential state state
  | update {message : AssistantMessage π} {index : Nat} {call : ToolCall π} (partialResult : ToolResult π)
      (hanswering : state.phase.answering = some message)
      (hstage : state.phase.stages[index]? = some .executing) (hcall : message.calls[index]? = some call) :
      Move sequential state (state.act [.emit (.toolExecutionUpdate ⟨state.turn, index⟩ call partialResult)])
  | first (messages : List (Given π)) (hphase : state.phase = .steering) :
      Move sequential state (processPending (take state messages) [])
  | prepareTurn (context : Context π) (prepared : List (Given π)) (hphase : state.phase = .preparingTurn)
      (hpending : state.pending ≠ []) :
      Move sequential state
        (processPending ({ state with context := context }.act [.emit .turnStart])
          (prepared.map (Given.toMessage .prepared)))
  | askAgain (context : Context π) (prepared : List (Given π)) (hphase : state.phase = .preparingTurn)
      (hpending : state.pending = []) :
      Move sequential state
        ({ state with context := context }.at' (.steeringAgain (prepared.map (Given.toMessage .prepared))))
  | steerAgain (messages : List (Given π)) {prepared : List (Message π)}
      (hphase : state.phase = .steeringAgain prepared) :
      Move sequential state (processPending ((take state messages).act [.emit .turnStart]) prepared)
  | request (context : Context π) (hphase : state.phase = .requesting) :
      Move sequential state ({ state with context := context }.at' (.streaming false))
  | responseStart (message : AssistantMessage π) (hphase : state.phase = .streaming false) :
      Move sequential state ((state.act [.emit (.messageStart (.assistant message))]).at' (.streaming true))
  | responseUpdate (message : AssistantMessage π) (hphase : state.phase = .streaming true) :
      Move sequential state (state.act [.emit (.messageUpdate (.assistant message))])
  | response (message : AssistantMessage π) {started : Bool} (hphase : state.phase = .streaming started) :
      Move sequential state (endResponse sequential state started message)
  | executeSequential (late : Bool) {message : AssistantMessage π} {finalized : List (Finalized π)} {call : ToolCall π}
      (hphase : state.phase = .sequential message finalized .preparing)
      (hcall : message.calls[finalized.length]? = some call) :
      Move sequential state
        (((state.act [.judged ⟨state.turn, finalized.length⟩ .ready,
          .execute ⟨state.turn, finalized.length⟩]).abortIf late).at' (.sequential message finalized .executing))
  | refuseSequential (late : Bool) {message : AssistantMessage π} {finalized : List (Finalized π)} {call : ToolCall π}
      (verdict : Verdict) (result : ToolResult π) (hphase : state.phase = .sequential message finalized .preparing)
      (hcall : message.calls[finalized.length]? = some call) :
      Move sequential state
        (nextSequential ((state.act [.judged ⟨state.turn, finalized.length⟩ verdict]).abortIf late) message finalized
          ⟨call, result, true⟩)
  | settleSequential {message : AssistantMessage π} {finalized : List (Finalized π)} (outcome : Outcome π)
      (hphase : state.phase = .sequential message finalized .executing) :
      Move sequential state (state.at' (.sequential message finalized (executePreparedToolCall outcome)))
  | finalizeSequential {message : AssistantMessage π} {finalized : List (Finalized π)} {result : ToolResult π}
      {isError : Bool} {call : ToolCall π} (after : After π)
      (hphase : state.phase = .sequential message finalized (.finalizing result isError))
      (hcall : message.calls[finalized.length]? = some call) :
      Move sequential state
        (nextSequential state message finalized (finalizeExecutedToolCall call result isError after))
  | prepareParallel (late : Bool) {message : AssistantMessage π} {stages : List (Stage π)} {call : ToolCall π}
      (hphase : state.phase = .preparingCalls message stages) (hcall : message.calls[stages.length]? = some call) :
      Move sequential state
        (nextParallel ((state.act [.judged ⟨state.turn, stages.length⟩ .ready]).abortIf late) message
          (stages ++ [Stage.waiting]))
  | refuseParallel (late : Bool) {message : AssistantMessage π} {stages : List (Stage π)} {call : ToolCall π}
      (verdict : Verdict) (result : ToolResult π) (hphase : state.phase = .preparingCalls message stages)
      (hcall : message.calls[stages.length]? = some call) :
      Move sequential state
        (nextParallel ((state.act [.judged ⟨state.turn, stages.length⟩ verdict,
            emitToolExecutionEnd ⟨state.turn, stages.length⟩ ⟨call, result, true⟩]).abortIf late)
          message (stages ++ [Stage.finalized ⟨call, result, true⟩]))
  | launch {message : AssistantMessage π} {stages : List (Stage π)} {index : Nat}
      (hphase : state.phase = .running message stages) (hstage : stages[index]? = some .waiting) :
      Move sequential state
        ((state.act [.execute ⟨state.turn, index⟩]).at' (.running message (stages.set index .executing)))
  | abandon {message : AssistantMessage π} {stages : List (Stage π)} {index : Nat} {call : ToolCall π}
      (result : ToolResult π) (hphase : state.phase = .running message stages)
      (hstage : stages[index]? = some .waiting) (hcall : message.calls[index]? = some call) :
      Move sequential state
        (collectParallel (state.act [emitToolExecutionEnd ⟨state.turn, index⟩ ⟨call, result, true⟩]) message
          (stages.set index (.finalized ⟨call, result, true⟩)))
  | settleParallel {message : AssistantMessage π} {stages : List (Stage π)} {index : Nat} (outcome : Outcome π)
      (hphase : state.phase = .running message stages) (hstage : stages[index]? = some .executing) :
      Move sequential state (state.at' (.running message (stages.set index (executePreparedToolCall outcome))))
  | finalizeParallel {message : AssistantMessage π} {stages : List (Stage π)} {index : Nat} {result : ToolResult π}
      {isError : Bool} {call : ToolCall π} (after : After π) (hphase : state.phase = .running message stages)
      (hstage : stages[index]? = some (.finalizing result isError)) (hcall : message.calls[index]? = some call) :
      Move sequential state
        (collectParallel
          (state.act [emitToolExecutionEnd ⟨state.turn, index⟩ (finalizeExecutedToolCall call result isError after)])
          message (stages.set index (.finalized (finalizeExecutedToolCall call result isError after))))
  | finishTurn {message : AssistantMessage π} {toolResults : List (ToolResultMessage π)} {hasMoreToolCalls : Bool}
      (decision : Decision) (hphase : state.phase = .finishing message toolResults hasMoreToolCalls) :
      Move sequential state (endTurn state message toolResults hasMoreToolCalls decision)
  | nextTurn (messages : List (Given π))
      (hphase : (∃ more explicit, state.phase = .polling more explicit) ∨
        ∃ explicit, state.phase = .followUps explicit) :
      Move sequential state ((take state messages).at' .preparingTurn)
  | stop {more explicit : Bool} (hphase : state.phase = .polling more explicit) :
      Move sequential state ((take state []).at' (.followUps explicit))
  | «end» {explicit : Bool} (hphase : state.phase = .followUps explicit) :
      Move sequential state (endRun (take state []))

theorem executing_of_any {stage : Option (Stage π)} (hstage : stage.any Stage.isExecuting = true) :
    stage = some .executing := by
  cases stage with
  | none => cases hstage
  | some stage => cases stage with
    | executing => rfl
    | _ => cases hstage

theorem waiting_of_findIdx? {stages : List (Stage π)} {index : Nat}
    (hindex : stages.findIdx? Stage.isWaiting = some index) : stages[index]? = some .waiting := by
  obtain ⟨hlt, hwaiting, -⟩ := List.findIdx?_eq_some_iff_getElem.1 hindex
  rw [List.getElem?_eq_getElem hlt]
  rcases hstage : stages[index] with _ | _ | _ | _ | _
  all_goals first | rfl | (rw [hstage] at hwaiting; cases hwaiting)

theorem move_of_step [DecidableEq π] {sequential : Bool} {state next : State π} {input : Input π}
    (hstep : step sequential state input = some next) : Move sequential state next := by
  rw [step.eq_def] at hstep
  split at hstep
  · cases hstep
    exact .abort
  next key partialResult =>
    split at hstep
    next hkey =>
      obtain ⟨turn, index⟩ := key
      obtain ⟨rfl, hexecuting⟩ := hkey
      have hstage := executing_of_any hexecuting
      split at hstep
      next message finalized stage hphase =>
        obtain ⟨call, hcall, rfl⟩ := map_eq_some_iff.1 hstep
        exact .update partialResult (by rw [hphase]; rfl) hstage hcall
      next message stages hphase =>
        obtain ⟨call, hcall, rfl⟩ := map_eq_some_iff.1 hstep
        exact .update partialResult (by rw [hphase]; rfl) hstage hcall
      · cases hstep
    · cases hstep
      exact .ignore
  next messages hphase =>
    cases hstep
    exact .first messages hphase
  next context messages hphase =>
    simp only at hstep
    split at hstep
    next hempty =>
      cases hstep
      exact .askAgain _ messages hphase (List.isEmpty_iff.1 hempty)
    next hpending =>
      cases hstep
      exact .prepareTurn _ messages hphase fun hempty => hpending (List.isEmpty_iff.2 hempty)
  next messages prepared hphase =>
    cases hstep
    exact .steerAgain messages hphase
  next context hphase =>
    cases hstep
    exact .request _ hphase
  next message hphase =>
    cases hstep
    exact .responseStart message hphase
  next message started hphase =>
    split at hstep
    next hstarted =>
      cases hstep
      exact .responseUpdate message (by rw [hphase, hstarted])
    · cases hstep
      exact .ignore
  next message started hphase =>
    cases hstep
    exact .response message hphase
  next checked late message finalized hphase =>
    obtain ⟨call, hcall, hnext⟩ := map_eq_some_iff.1 hstep
    subst hnext
    split
    · exact .executeSequential late hphase hcall
    next verdict result _ =>
      exact .refuseSequential late verdict result hphase hcall
  next index outcome message finalized hphase =>
    obtain ⟨-, rfl⟩ := of_guard hstep
    exact .settleSequential outcome hphase
  next index after message finalized result isError hphase =>
    split at hstep
    next hindex =>
      subst hindex
      obtain ⟨call, hcall, rfl⟩ := map_eq_some_iff.1 hstep
      exact .finalizeSequential after hphase hcall
    · cases hstep
  next checked late message stages hphase =>
    obtain ⟨call, hcall, hnext⟩ := map_eq_some_iff.1 hstep
    subst hnext
    split
    · exact .prepareParallel late hphase hcall
    next verdict result _ =>
      exact .refuseParallel late verdict result hphase hcall
  next message stages hphase =>
    obtain ⟨index, hindex, hlaunched⟩ := bind_eq_some_iff.1 hstep
    obtain ⟨call, hcall, hnext⟩ := map_eq_some_iff.1 hlaunched
    subst hnext
    have hstage := waiting_of_findIdx? hindex
    split
    · exact .abandon _ hphase hstage hcall
    · exact .launch hphase hstage
  next index outcome message stages hphase =>
    split at hstep
    · cases hstep
    split at hstep
    next hstage =>
      cases hstep
      exact .settleParallel outcome hphase hstage
    · cases hstep
  next index after message stages hphase =>
    split at hstep
    next result isError hstage =>
      obtain ⟨call, hcall, hnext⟩ := map_eq_some_iff.1 hstep
      subst hnext
      exact .finalizeParallel after hphase hstage hcall
    · cases hstep
  next decision message toolResults hasMoreToolCalls hphase =>
    cases hstep
    exact .finishTurn decision hphase
  next messages more explicit hphase =>
    split at hstep
    · cases hstep
      exact .nextTurn messages (.inl ⟨more, explicit, hphase⟩)
    rename_i hstop
    cases hstep
    obtain ⟨-, rfl⟩ : more = false ∧ messages = [] := by simpa using hstop
    exact .stop hphase
  next messages explicit hphase =>
    split at hstep
    · cases hstep
      exact .nextTurn messages (.inr ⟨explicit, hphase⟩)
    rename_i hempty
    obtain rfl : messages = [] := by simpa using hempty
    split at hstep
    · cases hstep
      exact .nextTurn [] (.inr ⟨explicit, hphase⟩)
    cases hstep
    exact .end hphase
  · cases hstep

end Hummin.AgentLoop
