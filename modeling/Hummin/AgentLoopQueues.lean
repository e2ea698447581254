/-
The steering and follow-up queues: every message taken from them is among the new messages
once, in the order of the polls; only the tools a system message declares are the loop's own.
-/
import Hummin.AgentLoopMoves

namespace Hummin.AgentLoop

open List

universe u

variable {π : Type u}

/-- Messages that are not of the loop's own turns. -/
def Message.isGiven (message : Message π) : Bool := !message.isAssistant && !message.isToolResult

/-- The queued messages of some messages, but for the tools they declare. -/
def queuedOf (messages : List (Message π)) : List (Message π) :=
  (messages.filter Message.isQueued).map Message.withoutTools

variable (messages : List (Message π))

theorem queuedOf_append (more : List (Message π)) :
    queuedOf (messages ++ more) = queuedOf messages ++ queuedOf more := by
  rw [queuedOf, filter_append, map_append]
  rfl

/-! ### Tool declarations -/

theorem queuedOf_modify (changes : ToolStateChanges π) (messages : List (Message π)) (index : Nat) :
    queuedOf (messages.modify index (withToolChanges changes)) = queuedOf messages := by
  have hone (message : Message π) (rest : List (Message π)) :
      queuedOf (withToolChanges changes message :: rest) = queuedOf (message :: rest) := by
    cases message with
    | system origin message =>
      by_cases horigin : origin = .queued
      · simp [queuedOf, withToolChanges, Message.isQueued, Message.withoutTools, horigin]
      · simp [queuedOf, withToolChanges, Message.isQueued, horigin]
    | _ => rfl
  induction messages generalizing index with
  | nil => simp
  | cons message rest ih =>
    cases index with
    | zero => exact hone message rest
    | succ index =>
      rw [modify_succ_cons, ← singleton_append, queuedOf_append, ih, ← queuedOf_append]
      rfl

theorem given_modify (changes : ToolStateChanges π) {messages : List (Message π)}
    (hgiven : ∀ message ∈ messages, message.isGiven = true) (index : Nat) :
    ∀ message ∈ messages.modify index (withToolChanges changes), message.isGiven = true := by
  induction messages generalizing index with
  | nil => simp
  | cons first rest ih =>
    have hrest := fun other hother => hgiven other (mem_cons_of_mem first hother)
    have hfirst := hgiven first mem_cons_self
    cases index with
    | zero =>
      rw [modify_zero_cons]
      rintro message hmessage
      rcases mem_cons.1 hmessage with rfl | hold
      · cases first with
        | system origin message => rfl
        | other origin content => rfl
        | _ => cases hfirst
      · exact hrest message hold
    | succ index =>
      rw [modify_succ_cons]
      rintro message hmessage
      rcases mem_cons.1 hmessage with rfl | hold
      · exact hfirst
      · exact ih hrest index message hold

theorem queuedOf_declareToolChanges [DecidableEq π] (context : Context π)
    (pending : List (Message π)) :
    queuedOf (declareToolChanges context pending) = queuedOf pending := by
  rcases hindex : findLastSystem pending with _ | index
  · simp only [declareToolChanges, hindex]
    split
    · rfl
    rw [queuedOf_append, ← singleton_append, queuedOf_append]
    show _ ++ ([] ++ _) = _
    rw [nil_append, ← queuedOf_append, take_append_drop]
  simp only [declareToolChanges, hindex]
  split
  · rfl
  · rw [queuedOf_modify, queuedOf_modify]

theorem given_declareToolChanges [DecidableEq π] (context : Context π) {pending : List (Message π)}
    (hgiven : ∀ message ∈ pending, message.isGiven = true) :
    ∀ message ∈ declareToolChanges context pending, message.isGiven = true := by
  rcases hindex : findLastSystem pending with _ | index
  · simp only [declareToolChanges, hindex]
    split
    · exact hgiven
    intro message hmessage
    rcases mem_append.1 hmessage with hbefore | hafter
    · exact hgiven message (mem_of_mem_take hbefore)
    rcases mem_cons.1 hafter with rfl | hrest
    · rfl
    · exact hgiven message (mem_of_mem_drop hrest)
  simp only [declareToolChanges, hindex]
  split
  · exact hgiven
  · exact given_modify _ (given_modify _ hgiven index) index

/-! ### States -/

structure QueueOk (state : State π) : Prop where
  cleared : state.phase ≠ .preparingTurn → state.pending = []
  pending : ∀ message ∈ state.pending, message.isGiven = true ∧ message.isQueued = true
  prepared : ∀ prepared, state.phase = .steeringAgain prepared →
    ∀ message ∈ prepared, message.isGiven = true ∧ message.isQueued = false
  taken : queuedOf state.messages ++ queuedOf state.pending = state.taken.map Message.withoutTools

theorem given_toMessages (origin : Origin) (messages : List (Given π)) :
    ∀ message ∈ messages.map (Given.toMessage origin),
      message.isGiven = true ∧ message.isQueued = decide (origin = .queued) := by
  intro message hmessage
  obtain ⟨given, -, rfl⟩ := mem_map.1 hmessage
  cases given <;> exact ⟨rfl, rfl⟩

theorem queuedOf_of_all {messages : List (Message π)}
    (hqueued : ∀ message ∈ messages, message.isQueued = true) :
    queuedOf messages = messages.map Message.withoutTools := by
  rw [queuedOf, filter_eq_self.2 hqueued]

theorem queuedOf_of_none {messages : List (Message π)}
    (hqueued : ∀ message ∈ messages, message.isQueued = false) : queuedOf messages = [] := by
  have hnone : messages.filter Message.isQueued = [] := by
    rw [filter_eq_nil_iff]
    intro message hmessage
    rw [hqueued message hmessage]
    exact Bool.false_ne_true
  rw [queuedOf, hnone]
  rfl

variable {state : State π}

/-- A state without pending messages keeps what was taken when messages that are not queued
are added. -/
theorem QueueOk.added (hstate : QueueOk state) (hphase : state.phase ≠ .preparingTurn)
    {messages : List (Message π)} (hmessages : queuedOf messages = queuedOf state.messages) :
    queuedOf messages = state.taken.map Message.withoutTools := by
  have htaken := hstate.taken
  rw [hstate.cleared hphase] at htaken
  rw [hmessages, ← htaken]
  exact (append_nil _).symm

/-- The pending messages are added, and nothing is pending any more. -/
theorem queueOk_processPending [DecidableEq π] {state : State π} {prepared : List (Message π)}
    (hprepared : ∀ message ∈ prepared, message.isQueued = false)
    (htaken : queuedOf state.messages ++ queuedOf state.pending = state.taken.map Message.withoutTools) :
    QueueOk (processPending state prepared) where
  cleared := fun _ => rfl
  pending := fun message hmessage => by cases hmessage
  prepared := fun prepared hphase => by cases hphase
  taken := by
    show queuedOf (state.messages ++ declareToolChanges state.context (prepared ++ state.pending)) ++ [] = _
    rw [append_nil, queuedOf_append, queuedOf_declareToolChanges, queuedOf_append, queuedOf_of_none hprepared,
      nil_append]
    exact htaken

/-- After a poll of a queue nothing but the polled messages is pending. -/
theorem taken_take (hstate : QueueOk state) (hphase : state.phase ≠ .preparingTurn)
    (messages : List (Given π)) :
    queuedOf (take state messages).messages ++ queuedOf (take state messages).pending =
      (take state messages).taken.map Message.withoutTools := by
  have hqueued := given_toMessages (π := π) .queued messages
  show queuedOf state.messages ++ queuedOf (messages.map (Given.toMessage .queued)) =
    (state.taken ++ messages.map (Given.toMessage .queued)).map Message.withoutTools
  rw [queuedOf_of_all fun message hmessage => (hqueued message hmessage).2, map_append,
    hstate.added hphase rfl]

/-- Nothing is taken from a queue, and only messages that are not queued are added. -/
structure Quiet (state next : State π) : Prop where
  pending : next.pending = state.pending
  taken : next.taken = state.taken
  messages : queuedOf next.messages = queuedOf state.messages
  prepared : ∀ prepared, next.phase ≠ .steeringAgain prepared

variable {next : State π}

theorem QueueOk.quiet (hstate : QueueOk state) (hphase : state.phase ≠ .preparingTurn)
    (hquiet : Quiet state next) : QueueOk next where
  cleared := fun _ => by rw [hquiet.pending, hstate.cleared hphase]
  pending := fun message hmessage => hstate.pending message (by rw [← hquiet.pending]; exact hmessage)
  prepared := fun prepared hnext => absurd hnext (hquiet.prepared prepared)
  taken := by
    rw [hquiet.pending, hquiet.taken, hquiet.messages]
    exact hstate.taken

theorem queuedOf_results (results : List (ToolResultMessage π)) :
    queuedOf (messages ++ results.map Message.toolResult) = queuedOf messages := by
  have hnone : queuedOf (results.map Message.toolResult) = [] := by
    apply queuedOf_of_none
    intro message hmessage
    obtain ⟨result, -, rfl⟩ := mem_map.1 hmessage
    rfl
  rw [queuedOf_append, hnone, append_nil]

theorem quiet_finishCalls (state : State π) (message : AssistantMessage π)
    (finalized : List (Finalized π))
    (terminate : Bool) : Quiet state (finishCalls state message finalized terminate) where
  pending := rfl
  taken := rfl
  messages := queuedOf_results ..
  prepared := fun _ hphase => by cases hphase

theorem Quiet.of_act {actions : List (Action π)} (hquiet : Quiet (state.act actions) next) :
    Quiet state next :=
  ⟨hquiet.pending, hquiet.taken, hquiet.messages, hquiet.prepared⟩

theorem Quiet.of_abortIf {late : Bool} (hquiet : Quiet (state.abortIf late) next) :
    Quiet state next :=
  ⟨hquiet.pending, hquiet.taken, hquiet.messages, hquiet.prepared⟩

theorem quiet_at {phase : Phase π} (hphase : ∀ prepared, phase ≠ .steeringAgain prepared)
    (actions : List (Action π)) : Quiet state ((state.act actions).at' phase) :=
  ⟨rfl, rfl, rfl, hphase⟩

theorem quiet_nextSequential (state : State π) (message : AssistantMessage π)
    (finalized : List (Finalized π))
    (outcome : Finalized π) : Quiet state (nextSequential state message finalized outcome) := by
  rw [nextSequential]
  split
  · exact (quiet_finishCalls ..).of_act
  split
  · exact (quiet_finishCalls ..).of_act
  · exact ⟨rfl, rfl, rfl, fun _ hphase => by cases hphase⟩

theorem quiet_collectParallel (state : State π) (message : AssistantMessage π)
    (stages : List (Stage π)) : Quiet state (collectParallel state message stages) := by
  rw [collectParallel]
  split
  · exact (quiet_finishCalls ..).of_act
  · exact ⟨rfl, rfl, rfl, fun _ hphase => by cases hphase⟩

theorem quiet_nextParallel (state : State π) (message : AssistantMessage π)
    (stages : List (Stage π)) : Quiet state (nextParallel state message stages) := by
  rw [nextParallel]
  split
  · exact quiet_collectParallel ..
  split
  · exact quiet_collectParallel ..
  · exact ⟨rfl, rfl, rfl, fun _ hphase => by cases hphase⟩

theorem quiet_executeToolCalls (sequential : Bool) (state : State π) (message : AssistantMessage π)
    (call : ToolCall π) : Quiet state (executeToolCalls sequential state message call) := by
  rw [executeToolCalls]
  split
  · exact ⟨rfl, rfl, rfl, fun _ hphase => by cases hphase⟩
  · exact ⟨rfl, rfl, rfl, fun _ hphase => by cases hphase⟩

theorem quiet_endResponse (sequential : Bool) (state : State π) (started : Bool)
    (message : AssistantMessage π) :
    Quiet state (endResponse sequential state started message) := by
  have hmessages : queuedOf (state.messages ++ [Message.assistant message]) = queuedOf state.messages := by
    rw [queuedOf_append]
    exact append_nil _
  have hadded {added next : State π} (hpending : added.pending = state.pending) (htaken : added.taken = state.taken)
      (hsame : added.messages = state.messages ++ [Message.assistant message]) (hquiet : Quiet added next) :
      Quiet state next :=
    ⟨hquiet.pending.trans hpending, hquiet.taken.trans htaken,
      hquiet.messages.trans (by rw [hsame, hmessages]), hquiet.prepared⟩
  rw [endResponse]
  split
  · exact ⟨rfl, rfl, hmessages, fun _ hphase => by cases hphase⟩
  split
  · exact ⟨rfl, rfl, hmessages, fun _ hphase => by cases hphase⟩
  split
  · refine hadded ?_ ?_ ?_ (quiet_finishCalls ..).of_act
    · rfl
    · rfl
    · rfl
  refine hadded ?_ ?_ ?_ (quiet_executeToolCalls ..)
  · rfl
  · rfl
  · rfl

theorem queueOk_move [DecidableEq π] {sequential : Bool} {state next : State π}
    (hstate : QueueOk state) (hmove : Move sequential state next) : QueueOk next := by
  cases hmove with
  | abort => exact ⟨hstate.cleared, hstate.pending, hstate.prepared, hstate.taken⟩
  | ignore => exact hstate
  | update partialResult hanswering hstage hcall =>
    exact ⟨hstate.cleared, hstate.pending, hstate.prepared, hstate.taken⟩
  | first messages hphase =>
    apply queueOk_processPending (forall_mem_nil _)
    exact taken_take hstate (by simp [hphase]) messages
  | prepareTurn context prepared hphase hpending =>
    exact queueOk_processPending (fun message hmessage => (given_toMessages .prepared prepared message hmessage).2)
      hstate.taken
  | askAgain context prepared hphase hpending =>
    refine ⟨fun _ => hpending, hstate.pending, fun other hother message hmessage => ?_, hstate.taken⟩
    obtain rfl : prepared.map (Given.toMessage .prepared) = other := by simpa [State.at'] using hother
    exact given_toMessages .prepared prepared message hmessage
  | @steerAgain messages prepared hphase =>
    apply queueOk_processPending fun message hmessage => (hstate.prepared prepared hphase message hmessage).2
    exact taken_take hstate (by simp [hphase]) messages
  | request context hphase =>
    exact hstate.quiet (by simp [hphase]) ⟨rfl, rfl, rfl, fun _ hnext => by cases hnext⟩
  | responseStart message hphase =>
    exact hstate.quiet (by simp [hphase]) (quiet_at (fun _ hnext => by cases hnext) _)
  | responseUpdate message hphase =>
    exact ⟨hstate.cleared, hstate.pending, hstate.prepared, hstate.taken⟩
  | response message hphase => exact hstate.quiet (by simp [hphase]) (quiet_endResponse ..)
  | executeSequential late hphase hcall =>
    exact hstate.quiet (by simp [hphase]) ⟨rfl, rfl, rfl, fun _ hnext => by cases hnext⟩
  | refuseSequential late verdict result hphase hcall =>
    exact hstate.quiet (by simp [hphase]) (quiet_nextSequential ..).of_abortIf.of_act
  | settleSequential outcome hphase =>
    exact hstate.quiet (by simp [hphase]) ⟨rfl, rfl, rfl, fun _ hnext => by cases hnext⟩
  | finalizeSequential after hphase hcall => exact hstate.quiet (by simp [hphase]) (quiet_nextSequential ..)
  | prepareParallel late hphase hcall =>
    exact hstate.quiet (by simp [hphase]) (quiet_nextParallel ..).of_abortIf.of_act
  | refuseParallel late verdict result hphase hcall =>
    exact hstate.quiet (by simp [hphase]) (quiet_nextParallel ..).of_abortIf.of_act
  | launch hphase hstage => exact hstate.quiet (by simp [hphase]) (quiet_at (fun _ hnext => by cases hnext) _)
  | abandon result hphase hstage hcall =>
    exact hstate.quiet (by simp [hphase]) (quiet_collectParallel ..).of_act
  | settleParallel outcome hphase hstage =>
    exact hstate.quiet (by simp [hphase]) ⟨rfl, rfl, rfl, fun _ hnext => by cases hnext⟩
  | finalizeParallel after hphase hstage hcall =>
    exact hstate.quiet (by simp [hphase]) (quiet_collectParallel ..).of_act
  | @finishTurn message toolResults hasMoreToolCalls decision hphase =>
    apply hstate.quiet (by simp [hphase])
    rw [endTurn.eq_def]
    split
    · exact ⟨rfl, rfl, rfl, fun _ hnext => by cases hnext⟩
    cases decision with
    | _ => exact ⟨rfl, rfl, rfl, fun _ hnext => by cases hnext⟩
  | nextTurn messages hphase =>
    have hnot : state.phase ≠ .preparingTurn := by
      rcases hphase with ⟨more, explicit, hphase⟩ | ⟨explicit, hphase⟩ <;> simp [hphase]
    refine ⟨fun hnext => absurd rfl hnext, given_toMessages .queued messages, ?_, taken_take hstate hnot messages⟩
    exact nofun
  | stop hphase =>
    refine ⟨fun _ => rfl, forall_mem_nil _, ?_, taken_take hstate (by simp [hphase]) []⟩
    exact nofun
  | «end» hphase =>
    refine ⟨fun _ => rfl, forall_mem_nil _, ?_, taken_take hstate (by simp [hphase]) []⟩
    exact nofun

end Hummin.AgentLoop
