/-
What the trace of an agent run is read for: its messages, each between a start and an end, and
the actions of each tool call.
-/
import Hummin.AgentLoop

namespace Hummin.AgentLoop

open List Option

universe u

variable {π : Type u}

/-! ### Messages -/

namespace Action

def endedMessage? : Action π → Option (Message π)
  | .emit (.messageEnd message) => some message
  | _ => none

def isMessageStart : Action π → Bool
  | .emit (.messageStart _) => true
  | _ => false

def isMessageEnd : Action π → Bool
  | .emit (.messageEnd _) => true
  | _ => false

/-- Actions that have to do with messages. -/
def isOfMessage : Action π → Bool
  | .emit (.messageUpdate _) => true
  | action => action.isMessageStart || action.isMessageEnd

end Action

/-- The messages of the `message_end` events. -/
def messageEnds (trace : List (Action π)) : List (Message π) := trace.filterMap Action.endedMessage?

/-- Whether a message is open after an action; `none` where a message starts in another or an
end or an update has no message. -/
def messageStep (isOpen : Bool) : Action π → Option Bool
  | .emit (.messageStart _) => if isOpen then none else some true
  | .emit (.messageUpdate _) => if isOpen then some true else none
  | .emit (.messageEnd _) => if isOpen then some false else none
  | _ => some isOpen

def messageScan (isOpen : Bool) (trace : List (Action π)) : Option Bool := trace.foldlM messageStep isOpen

theorem messageScan_append (isOpen : Bool) (trace more : List (Action π)) :
    messageScan isOpen (trace ++ more) = (messageScan isOpen trace).bind fun isOpen => messageScan isOpen more :=
  foldlM_append

variable {action : Action π}

theorem messageStep_of_not (haction : action.isOfMessage = false) (isOpen : Bool) :
    messageStep isOpen action = some isOpen := by
  cases action with
  | emit event => cases event <;> first | rfl | cases haction
  | _ => rfl

variable {actions : List (Action π)}

theorem messageScan_of_not (hactions : ∀ action ∈ actions, action.isOfMessage = false)
    (isOpen : Bool) : messageScan isOpen actions = some isOpen := by
  induction actions with
  | nil => rfl
  | cons action rest ih =>
    rw [messageScan, foldlM_cons, messageStep_of_not (hactions action mem_cons_self)]
    exact ih fun other hother => hactions other (mem_cons_of_mem action hother)

theorem messageEnds_append (trace more : List (Action π)) :
    messageEnds (trace ++ more) = messageEnds trace ++ messageEnds more :=
  filterMap_append

theorem messageEnds_of_not (hactions : ∀ action ∈ actions, action.isOfMessage = false) :
    messageEnds actions = [] := by
  rw [messageEnds, filterMap_eq_nil_iff]
  intro action haction
  have hnot := hactions action haction
  cases action with
  | emit event => cases event <;> first | rfl | cases hnot
  | _ => rfl

theorem messageEnds_emitMessages (messages : List (Message π)) :
    messageEnds (messages.flatMap emitMessage) = messages := by
  induction messages with
  | nil => rfl
  | cons message rest ih =>
    rw [flatMap_cons, messageEnds_append, ih]
    rfl

theorem messageScan_emitMessages (messages : List (Message π)) :
    messageScan false (messages.flatMap emitMessage) = some false := by
  induction messages with
  | nil => rfl
  | cons message rest ih =>
    rw [flatMap_cons, messageScan_append]
    exact ih

theorem starts_of_messageStep {before after : Bool}
    (hstep : messageStep before action = some after) :
    before.toNat + (if action.isMessageStart then 1 else 0) =
      (if action.isMessageEnd then 1 else 0) + after.toNat := by
  cases action with
  | emit event =>
    cases event with
    | messageStart message =>
      cases before with
      | true => cases hstep
      | false =>
        cases hstep
        rfl
    | messageUpdate message =>
      cases before with
      | true =>
        cases hstep
        rfl
      | false => cases hstep
    | messageEnd message =>
      cases before with
      | true =>
        cases hstep
        rfl
      | false => cases hstep
    | _ =>
      cases hstep
      exact Nat.add_comm ..
  | _ =>
    cases hstep
    exact Nat.add_comm ..

/-- Where the scan does not fail, the open message is the one start without an end. -/
theorem starts_of_messageScan {trace : List (Action π)} {before after : Bool}
    (hscan : messageScan before trace = some after) :
    before.toNat + trace.countP Action.isMessageStart = trace.countP Action.isMessageEnd + after.toNat := by
  induction trace generalizing before with
  | nil =>
    cases hscan
    exact Nat.add_comm ..
  | cons action rest ih =>
    rw [messageScan, foldlM_cons] at hscan
    obtain ⟨next, hnext, hrest⟩ := bind_eq_some_iff.1 hscan
    have hone := starts_of_messageStep hnext
    have hcounts := ih hrest
    rw [countP_cons, countP_cons]
    omega

/-- Each end of a message has a start of its own before it. -/
theorem start_before_end {trace : List (Action π)} {isOpen : Bool} (hscan : messageScan false trace = some isOpen)
    {before after : List (Action π)} {message : Message π}
    (hsplit : trace = before ++ .emit (.messageEnd message) :: after) :
    before.countP Action.isMessageStart = before.countP Action.isMessageEnd + 1 := by
  rw [hsplit, messageScan_append] at hscan
  obtain ⟨middle, hbefore, hafter⟩ := bind_eq_some_iff.1 hscan
  have hcounts := starts_of_messageScan hbefore
  cases middle with
  | false => cases hafter
  | true =>
    simp only [Bool.toNat_false, Bool.toNat_true] at hcounts
    omega

/-! ### Tool calls -/

namespace Action

/-- The call an action is about. -/
def key? : Action π → Option CallKey
  | .emit (.toolExecutionStart key _) => some key
  | .emit (.toolExecutionUpdate key _ _) => some key
  | .emit (.toolExecutionEnd key _ _ _) => some key
  | .judged key _ => some key
  | .execute key => some key
  | _ => none

end Action

/-- The actions of one call. -/
def callTrace (key : CallKey) (trace : List (Action π)) : List (Action π) :=
  trace.filter fun action => decide (action.key? = some key)

theorem callTrace_append (key : CallKey) (trace more : List (Action π)) :
    callTrace key (trace ++ more) = callTrace key trace ++ callTrace key more :=
  filter_append ..

theorem callTrace_eq_nil {key : CallKey}
    (hactions : ∀ action ∈ actions, action.key? ≠ some key) : callTrace key actions = [] := by
  rw [callTrace, filter_eq_nil_iff]
  intro action haction
  simpa using hactions action haction

/-- A call's partial results. -/
def areUpdates (key : CallKey) (call : ToolCall π) (actions : List (Action π)) : Prop :=
  ∀ action ∈ actions, ∃ partialResult, action = .emit (.toolExecutionUpdate key call partialResult)

/-- The actions of a call that was started and has ended: one that is not ready is not
executed, and the updates are between its start and its end. -/
inductive CallRun (key : CallKey) (call : ToolCall π) : List (Action π) → Prop
  | refused (verdict : Verdict) (result : ToolResult π) (isError : Bool) :
      CallRun key call [.emit (.toolExecutionStart key call), .judged key verdict,
        .emit (.toolExecutionEnd key call result isError)]
  | executed {updates : List (Action π)} (hupdates : areUpdates key call updates) (result : ToolResult π)
      (isError : Bool) :
      CallRun key call (([.emit (.toolExecutionStart key call), .judged key .ready, .execute key] :
        List (Action π)) ++ updates ++ [Action.emit (.toolExecutionEnd key call result isError)])

/-- The actions of a call so far. -/
def Progress (key : CallKey) (call : ToolCall π) : Stage π → List (Action π) → Prop
  | .preparing, actions => actions = [.emit (.toolExecutionStart key call)]
  | .waiting, actions => actions = [.emit (.toolExecutionStart key call), .judged key .ready]
  | .executing, actions | .finalizing _ _, actions => ∃ updates, areUpdates key call updates ∧
      actions = [.emit (.toolExecutionStart key call), .judged key .ready, .execute key] ++ updates
  | .finalized outcome, actions => outcome.call = call ∧ CallRun key call actions

/-- The calls of the response that is being answered are as far as their stages say, and those
of earlier responses have ended or were not started. -/
structure CallsAt (turn : Nat) (calls : List (ToolCall π)) (stages : List (Stage π)) (trace : List (Action π)) :
    Prop where
  later : ∀ key : CallKey, turn < key.turn → callTrace key trace = []
  earlier : ∀ key : CallKey, key.turn < turn → callTrace key trace = [] ∨ ∃ call, CallRun key call (callTrace key trace)
  unstarted : ∀ index, stages[index]? = none → callTrace ⟨turn, index⟩ trace = []
  started : ∀ index stage, stages[index]? = some stage → ∃ call, calls[index]? = some call ∧
    Progress ⟨turn, index⟩ call stage (callTrace ⟨turn, index⟩ trace)

/-- Every call has ended or was not started. -/
structure CallsDone (turn : Nat) (trace : List (Action π)) : Prop where
  later : ∀ key : CallKey, turn < key.turn → callTrace key trace = []
  earlier : ∀ key : CallKey, key.turn ≤ turn →
    callTrace key trace = [] ∨ ∃ call, CallRun key call (callTrace key trace)

/-- Actions that are not about a call. -/
def unkeyed (actions : List (Action π)) : Prop := ∀ action ∈ actions, action.key? = none

theorem callTrace_unkeyed (hactions : unkeyed actions) (key : CallKey)
    (trace : List (Action π)) : callTrace key (trace ++ actions) = callTrace key trace := by
  have hnone : callTrace key actions = [] := by
    apply callTrace_eq_nil
    intro action haction
    rw [hactions action haction]
    exact (some_ne_none key).symm
  rw [callTrace_append, hnone, append_nil]

theorem CallsDone.unkeyed {turn : Nat} {trace : List (Action π)} (hdone : CallsDone turn trace)
    (hactions : unkeyed actions) : CallsDone turn (trace ++ actions) where
  later := fun key hkey => by rw [callTrace_unkeyed hactions]; exact hdone.later key hkey
  earlier := fun key hkey => by rw [callTrace_unkeyed hactions]; exact hdone.earlier key hkey

/-- The next turn begins without calls. -/
theorem CallsDone.next {turn : Nat} {trace : List (Action π)} (hdone : CallsDone turn trace)
    (calls : List (ToolCall π)) : CallsAt (turn + 1) calls [] trace where
  later := fun key hkey => hdone.later key (by omega)
  earlier := fun key hkey => hdone.earlier key (by omega)
  unstarted := fun index _ => hdone.later ⟨turn + 1, index⟩ (Nat.lt_succ_self turn)
  started := fun index stage hstage => by simp at hstage

section Calls

variable {turn : Nat} {calls : List (ToolCall π)} {stages : List (Stage π)} {trace : List (Action π)}
  (hcalls : CallsAt turn calls stages trace)

include hcalls

theorem CallsAt.unkeyed {actions : List (Action π)} (hactions : unkeyed actions) :
    CallsAt turn calls stages (trace ++ actions) where
  later := fun key hkey => by rw [callTrace_unkeyed hactions]; exact hcalls.later key hkey
  earlier := fun key hkey => by rw [callTrace_unkeyed hactions]; exact hcalls.earlier key hkey
  unstarted := fun index hindex => by rw [callTrace_unkeyed hactions]; exact hcalls.unstarted index hindex
  started := fun index stage hstage => by rw [callTrace_unkeyed hactions]; exact hcalls.started index stage hstage

/-- When every started call has ended, the batch is done. -/
theorem CallsAt.done (hdone : ∀ stage ∈ stages, ∃ outcome, stage = .finalized outcome) : CallsDone turn trace where
  later := hcalls.later
  earlier := fun key hkey => by
    by_cases hturn : key.turn = turn
    · obtain ⟨keyTurn, index⟩ := key
      obtain rfl : keyTurn = turn := hturn
      rcases hstage : stages[index]? with _ | stage
      · exact .inl (hcalls.unstarted index hstage)
      obtain ⟨call, -, hprogress⟩ := hcalls.started index stage hstage
      obtain ⟨outcome, rfl⟩ := hdone stage (mem_of_getElem? hstage)
      exact .inr ⟨call, hprogress.2⟩
    · exact hcalls.earlier key (by omega)

/-- One call goes from stage to stage with actions of its own. -/
theorem CallsAt.change {stages' : List (Stage π)} {actions : List (Action π)} {index : Nat} {stage : Stage π}
    {call : ToolCall π} (hcall : calls[index]? = some call) (hstage : stages'[index]? = some stage)
    (hothers : ∀ other, other ≠ index → stages'[other]? = stages[other]?)
    (hactions : ∀ action ∈ actions, action.key? = some ⟨turn, index⟩ ∨ action.key? = none)
    (hprogress : Progress ⟨turn, index⟩ call stage
      (callTrace ⟨turn, index⟩ trace ++ callTrace ⟨turn, index⟩ actions)) :
    CallsAt turn calls stages' (trace ++ actions) := by
  have hkept (key : CallKey) (hkey : key ≠ ⟨turn, index⟩) :
      callTrace key (trace ++ actions) = callTrace key trace := by
    have hnone : callTrace key actions = [] := by
      apply callTrace_eq_nil
      intro action haction hown
      rcases hactions action haction with hindex | hnone
      · exact hkey (some.inj (hown.symm.trans hindex))
      rw [hnone] at hown
      cases hown
    rw [callTrace_append, hnone, append_nil]
  refine ⟨fun key hkey => ?_, fun key hkey => ?_, fun other hother => ?_, fun other otherStage hother => ?_⟩
  · rw [hkept key (by rintro rfl; exact lt_irrefl _ hkey)]
    exact hcalls.later key hkey
  · rw [hkept key (by rintro rfl; exact lt_irrefl _ hkey)]
    exact hcalls.earlier key hkey
  · by_cases hindex : other = index
    · subst hindex
      rw [hstage] at hother
      cases hother
    rw [hkept _ (by simpa using hindex)]
    exact hcalls.unstarted other (by rw [← hothers other hindex]; exact hother)
  by_cases hindex : other = index
  · subst hindex
    cases hstage.symm.trans hother
    exact ⟨call, hcall, by rw [callTrace_append]; exact hprogress⟩
  rw [hkept _ (by simpa using hindex)]
  exact hcalls.started other otherStage (by rw [← hothers other hindex]; exact hother)

end Calls

end Hummin.AgentLoop
