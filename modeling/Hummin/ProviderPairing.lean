/-
Every tool call of the transcript gets one result. A well-formed transcript is a run of system
messages and then turns; the second pass puts the results of each turn before its system
messages, with a made-up result for each call that has none.
-/
import Hummin.ProviderIds

namespace Hummin.Provider

open List

def Message.isToolResult : Message → Bool
  | .toolResult _ => true
  | _ => false

/-- The ids of the results among some messages. -/
def resultIds (messages : List Message) : List JsString :=
  messages.filterMap fun message => match message with
    | .toolResult message => some message.toolCallId
    | _ => none

/-- An assistant or user message and the results and system messages up to the next one. -/
structure Turn where
  head : Message
  run : List Message

/-- The messages before the first turn, and the turns. -/
def turns : List Message → List Message × List Turn
  | [] => ([], [])
  | .assistant message :: rest => ([], ⟨.assistant message, (turns rest).1⟩ :: (turns rest).2)
  | .user content extra :: rest => ([], ⟨.user content extra, (turns rest).1⟩ :: (turns rest).2)
  | message :: rest => (message :: (turns rest).1, (turns rest).2)

namespace Turn

def messages (turn : Turn) : List Message := turn.head :: turn.run

def results (turn : Turn) : List Message := turn.run.filter Message.isToolResult

def systems (turn : Turn) : List Message := turn.run.filter fun message => !message.isToolResult

/-- What a turn is sent as: a message with calls has its results, the given ones in their
order and then one for each unanswered call, and the system messages after them. -/
def output (now : Nat) (turn : Turn) : List Message :=
  match turn.head with
  | .assistant message =>
    if message.isErrored then turn.systems
    else .assistant message :: turn.results ++
      (message.toolCalls.filter fun call => call.id ∉ resultIds turn.run).map (synthetic now) ++
      turn.systems
  | head => head :: turn.systems

end Turn

/-- The messages with every tool call paired. -/
def paired (now : Nat) (messages : List Message) : List Message :=
  (turns messages).1 ++ (turns messages).2.flatMap (Turn.output now)

/-- Every assistant message is directly followed by one result for each of its calls, and
there are no other results; `missing` are the calls whose result has to come. -/
def pairsUp : List JsString → List Message → Prop
  | missing, [] => missing = []
  | missing, .toolResult message :: rest =>
    message.toolCallId ∈ missing ∧ pairsUp (missing.erase message.toolCallId) rest
  | missing, .assistant message :: rest => missing = [] ∧ pairsUp message.callIds rest
  | missing, .system _ _ :: rest => missing = [] ∧ pairsUp [] rest
  | missing, .user _ _ :: rest => missing = [] ∧ pairsUp [] rest

/-- A message that is not a result and not a reply cut short. -/
def Message.isKept : Message → Bool
  | .toolResult _ => false
  | .assistant message => !message.isErrored
  | _ => true

def kept (messages : List Message) : List Message := messages.filter Message.isKept

/-! ### Turns -/

theorem turns_messages (messages : List Message) :
    (turns messages).1 ++ (turns messages).2.flatMap Turn.messages = messages := by
  induction messages with
  | nil => rfl
  | cons head rest ih =>
    cases head with
    | toolResult message => simpa [turns] using ih
    | system content extra => simpa [turns] using ih
    | _ => simpa [turns, Turn.messages] using ih

/-- Results and system messages only. -/
def IsRun (messages : List Message) : Prop :=
  ∀ message ∈ messages, (∃ result, message = .toolResult result) ∨
    ∃ content extra, message = .system content extra

theorem isRun_lead (messages : List Message) : IsRun (turns messages).1 := by
  induction messages with
  | nil => simp [turns, IsRun]
  | cons head rest ih =>
    cases head with
    | toolResult message =>
      intro other hother
      rcases mem_cons.1 hother with rfl | hrest
      · exact .inl ⟨message, rfl⟩
      · exact ih other hrest
    | system content extra =>
      intro other hother
      rcases mem_cons.1 hother with rfl | hrest
      · exact .inr ⟨content, extra, rfl⟩
      · exact ih other hrest
    | _ => simp [turns, IsRun]

/-- What a well-formed transcript's turns are: each result answers a call of its turn, no call
twice. -/
structure Turn.Orderly (turn : Turn) : Prop where
  run : IsRun turn.run
  head : (∃ message, turn.head = .assistant message) ∨ ∃ content extra, turn.head = .user content extra
  distinct : (resultIds turn.run).Nodup
  calls : ∀ message, turn.head = .assistant message → message.isErrored = false → message.callIds.Nodup
  answers : ∀ id ∈ resultIds turn.run,
    ∃ message, turn.head = .assistant message ∧ message.isErrored = false ∧ id ∈ message.callIds

variable {open' : List JsString} {messages : List Message}

theorem wellFormed.lead (hformed : wellFormed open' messages) (hopen : open'.Nodup) :
    (resultIds (turns messages).1).Nodup ∧ ∀ id ∈ resultIds (turns messages).1, id ∈ open' := by
  induction messages generalizing open' with
  | nil => simp [turns, resultIds]
  | cons head rest ih =>
    cases head with
    | toolResult message =>
      obtain ⟨hdistinct, hmem⟩ := ih hformed.2 (hopen.erase message.toolCallId)
      have hids : resultIds (turns (.toolResult message :: rest)).1 =
          message.toolCallId :: resultIds (turns rest).1 := rfl
      rw [hids, nodup_cons]
      refine ⟨⟨fun hagain => ?_, hdistinct⟩, ?_⟩
      · exact (List.Nodup.not_mem_erase hopen) (hmem _ hagain)
      intro id hid
      rcases mem_cons.1 hid with rfl | hrest
      · exact hformed.1
      · exact mem_of_mem_erase (hmem id hrest)
    | system content extra => exact ih hformed hopen
    | _ => simp [turns, resultIds]

theorem wellFormed.orderly
    (hformed : wellFormed open' messages) : ∀ turn ∈ (turns messages).2, turn.Orderly := by
  induction messages generalizing open' with
  | nil => simp [turns]
  | cons head rest ih =>
    cases head with
    | assistant message =>
      obtain ⟨hcalls, hrest⟩ := hformed
      intro turn hturn
      rcases mem_cons.1 hturn with rfl | hlater
      · obtain ⟨hdistinct, hanswers⟩ := hrest.lead (by split <;> simp [hcalls])
        refine ⟨isRun_lead rest, .inl ⟨message, rfl⟩, hdistinct, ?_, ?_⟩
        · rintro other heq -
          cases heq
          exact hcalls
        intro id hid
        have hdue := hanswers id hid
        by_cases herrored : message.isErrored = true
        · simp [herrored] at hdue
        rw [if_neg herrored] at hdue
        exact ⟨message, rfl, Bool.not_eq_true _ ▸ herrored, hdue⟩
      · exact ih hrest turn hlater
    | user content extra =>
      intro turn hturn
      rcases mem_cons.1 hturn with rfl | hlater
      · obtain ⟨hdistinct, hanswers⟩ := (show wellFormed [] rest from hformed).lead nodup_nil
        refine ⟨isRun_lead rest, .inr ⟨content, extra, rfl⟩, hdistinct, by simp, ?_⟩
        intro id hid
        exact absurd (hanswers id hid) not_mem_nil
      · exact ih hformed turn hlater
    | toolResult message => exact ih hformed.2
    | system content extra => exact ih hformed

/-! ### The second pass -/

/-- A run while calls are pending: the results go out at once, the system messages are held. -/
theorem foldl_run_pending (now : Nat) {run : List Message} (hrun : IsRun run) {pairing : Pairing}
    (hpending : pairing.pendingToolCalls ≠ []) :
    run.foldl (Pairing.step now) pairing =
      ⟨pairing.result ++ run.filter Message.isToolResult, pairing.pendingToolCalls,
        (resultIds run).reverse ++ pairing.existingToolResultIds,
        pairing.heldSystemMessages ++ run.filter fun message => !message.isToolResult⟩ := by
  induction run generalizing pairing with
  | nil => simp [resultIds]
  | cons head rest ih =>
    have hrest : IsRun rest := fun message hmessage => hrun message (mem_cons_of_mem head hmessage)
    rcases hrun head mem_cons_self with ⟨result, rfl⟩ | ⟨content, extra, rfl⟩
    · rw [foldl_cons, ih hrest (by exact hpending)]
      simp [Pairing.step, Pairing.push, Message.isToolResult, resultIds]
      rfl
    rw [foldl_cons, Pairing.step, if_neg hpending, ih hrest (by exact hpending)]
    simp [Message.isToolResult, resultIds]

/-- A run without results while no call is pending: everything goes out at once. -/
theorem foldl_run_idle (now : Nat) {run : List Message} (hrun : IsRun run)
    (hids : resultIds run = [])
    {pairing : Pairing} (hpending : pairing.pendingToolCalls = []) :
    run.foldl (Pairing.step now) pairing = { pairing with result := pairing.result ++ run } := by
  induction run generalizing pairing with
  | nil => simp
  | cons head rest ih =>
    have hrest : IsRun rest := fun message hmessage => hrun message (mem_cons_of_mem head hmessage)
    rcases hrun head mem_cons_self with ⟨result, rfl⟩ | ⟨content, extra, rfl⟩
    · simp [resultIds] at hids
    rw [foldl_cons, Pairing.step, if_pos hpending, ih hrest hids (by exact hpending)]
    simp [Pairing.push]

variable {run : List Message}

/-- Without results a run is its system messages. -/
theorem filter_run_of_no_results (hids : resultIds run = []) :
    run.filter (fun message => !message.isToolResult) = run ∧ run.filter Message.isToolResult = [] := by
  induction run with
  | nil => exact ⟨rfl, rfl⟩
  | cons head rest ih =>
    cases head with
    | toolResult message => simp [resultIds] at hids
    | _ => simpa [Message.isToolResult] using ih hids

namespace Pairing

variable {pairing : Pairing}

variable (now : Nat)

/-- With nothing pending and nothing held there is nothing to close. -/
theorem closePendingToolCalls_idle (hpending : pairing.pendingToolCalls = [])
    (hheld : pairing.heldSystemMessages = []) :
    (pairing.closePendingToolCalls now).result = pairing.result := by
  simp [closePendingToolCalls, hpending, hheld]

/-- One turn, once it is closed, adds its output. -/
theorem close_foldl_turn {turn : Turn} (horderly : turn.Orderly) :
    ((turn.messages.foldl (step now) pairing).closePendingToolCalls now).result =
      (pairing.closePendingToolCalls now).result ++ turn.output now := by
  obtain ⟨head, run⟩ := turn
  have hrun : IsRun run := horderly.run
  have hidle (next : Pairing) (hpending : next.pendingToolCalls = []) (hheld : next.heldSystemMessages = [])
      (hids : resultIds run = []) :
      ((run.foldl (step now) next).closePendingToolCalls now).result = next.result ++ run := by
    rw [foldl_run_idle now hrun hids hpending]
    exact closePendingToolCalls_idle now hpending hheld
  rcases horderly.head with ⟨message, rfl⟩ | ⟨content, extra, rfl⟩
  · simp only [Turn.messages, foldl_cons, Turn.output, Turn.systems, Turn.results]
    by_cases herrored : message.isErrored = true
    · -- a reply cut short is left out, and has no results
      have hids : resultIds run = [] := by
        apply eq_nil_iff_forall_not_mem.2
        intro id hid
        obtain ⟨other, heq, hfine, -⟩ := horderly.answers id hid
        cases heq
        simp [herrored] at hfine
      rw [step, if_pos herrored, if_pos herrored, hidle _ rfl rfl hids, (filter_run_of_no_results hids).1]
    rw [step, if_neg herrored, if_neg herrored]
    by_cases hcalls : message.toolCalls = []
    · have hids : resultIds run = [] := by
        apply eq_nil_iff_forall_not_mem.2
        intro id hid
        obtain ⟨other, heq, -, hmem⟩ := horderly.answers id hid
        cases heq
        simp [AssistantMessage.callIds, hcalls] at hmem
      rw [if_pos hcalls, hidle _ rfl rfl hids, (filter_run_of_no_results hids).1,
        (filter_run_of_no_results hids).2, hcalls]
      simp [push]
    · rw [if_neg hcalls, foldl_run_pending now hrun (by exact hcalls)]
      simp [closePendingToolCalls, push]
  have hids : resultIds run = [] := by
    apply eq_nil_iff_forall_not_mem.2
    intro id hid
    obtain ⟨other, heq, -⟩ := horderly.answers id hid
    cases heq
  simp only [Turn.messages, foldl_cons, Turn.output, Turn.systems]
  rw [step, hidle _ rfl rfl hids, (filter_run_of_no_results hids).1]
  simp [push]

theorem close_foldl_turns {all : List Turn} (horderly : ∀ turn ∈ all, turn.Orderly) :
    (((all.flatMap Turn.messages).foldl (step now) pairing).closePendingToolCalls now).result =
      (pairing.closePendingToolCalls now).result ++ all.flatMap (Turn.output now) := by
  induction all generalizing pairing with
  | nil => simp
  | cons turn rest ih =>
    have hrest : ∀ other ∈ rest, other.Orderly :=
      fun other hother => horderly other (mem_cons_of_mem turn hother)
    rw [flatMap_cons, foldl_append, ih hrest, close_foldl_turn now (horderly turn mem_cons_self),
      flatMap_cons, append_assoc]

end Pairing

variable (now : Nat)

/-- The second pass pairs the calls of a well-formed transcript. -/
theorem secondPass_eq_paired (hformed : wellFormed [] messages) :
    secondPass now messages = paired now messages := by
  have hlead : resultIds (turns messages).1 = [] := by
    apply eq_nil_iff_forall_not_mem.2
    intro id hid
    exact not_mem_nil ((hformed.lead nodup_nil).2 id hid)
  have hall := turns_messages messages
  rw [secondPass]
  nth_rewrite 1 [← hall]
  rw [foldl_append, Pairing.close_foldl_turns now hformed.orderly,
    foldl_run_idle now (isRun_lead messages) hlead rfl, Pairing.closePendingToolCalls_idle now rfl rfl]
  rfl

/-- What has gone out stays. -/
theorem result_prefix_step (pairing : Pairing) (message : Message) :
    pairing.result <+: (pairing.step now message).result := by
  have hclose : pairing.result <+: (pairing.closePendingToolCalls now).result := by
    rw [Pairing.closePendingToolCalls, append_assoc]
    exact prefix_append _ _
  cases message with
  | assistant message =>
    simp only [Pairing.step]
    split
    · exact hclose
    split
    · exact hclose.trans (prefix_append _ _)
    · exact hclose.trans (prefix_append _ _)
  | toolResult message => exact prefix_append _ _
  | system content extra =>
    simp only [Pairing.step]
    split
    · exact prefix_append _ _
    · exact prefix_refl _
  | user content extra => exact hclose.trans (prefix_append _ _)

theorem result_prefix_secondPass (pairing : Pairing) (messages : List Message) :
    pairing.result <+: ((messages.foldl (Pairing.step now) pairing).closePendingToolCalls now).result := by
  induction messages generalizing pairing with
  | nil =>
    rw [foldl_nil, Pairing.closePendingToolCalls, append_assoc]
    exact prefix_append _ _
  | cons head rest ih => exact (result_prefix_step now pairing head).trans (ih (pairing.step now head))

/-- Messages that differ in results at most. -/
def SameButResults (message other : Message) : Prop :=
  message = other ∨ ∃ result given, message = .toolResult result ∧ other = .toolResult given

/-- The second pass shows every result: transcripts that differ in results at most are sent
differently unless they are the same. -/
theorem secondPass_injective {others : List Message}
    (hsame : List.Forall₂ SameButResults messages others) (pairing : Pairing)
    (hout : ((messages.foldl (Pairing.step now) pairing).closePendingToolCalls now).result =
      ((others.foldl (Pairing.step now) pairing).closePendingToolCalls now).result) :
    messages = others := by
  induction hsame generalizing pairing with
  | nil => rfl
  | @cons message other messages others hhead _ ih =>
    have heq : message = other := by
      rcases hhead with heq | ⟨result, given, rfl, rfl⟩
      · exact heq
      have hleft := result_prefix_secondPass now (pairing.step now (.toolResult result)) messages
      have hright := result_prefix_secondPass now (pairing.step now (.toolResult given)) others
      rw [foldl_cons, foldl_cons] at hout
      rw [hout] at hleft
      have hprefix := prefix_of_prefix_length_le hleft hright (by simp [Pairing.step, Pairing.push])
      have hlast := hprefix.eq_of_length (by simp [Pairing.step, Pairing.push])
      simpa [Pairing.step, Pairing.push] using hlast
    subst heq
    rw [ih _ hout]

/-! ### What a paired transcript is -/

variable {rest : List Message}

/-- Results for just the missing calls bring the transcript in order. -/
theorem pairsUp_results {missing : List JsString} {results : List Message}
    (hresults : ∀ message ∈ results, message.isToolResult = true)
    (hmissing : missing.Perm (resultIds results)) (hrest : pairsUp [] rest) :
    pairsUp missing (results ++ rest) := by
  induction results generalizing missing with
  | nil =>
    have hnone : missing = [] := perm_nil.1 hmissing
    rw [hnone]
    exact hrest
  | cons head results ih =>
    have hlater : ∀ message ∈ results, message.isToolResult = true :=
      fun message hmessage => hresults message (mem_cons_of_mem head hmessage)
    cases head with
    | toolResult message =>
      have hids : resultIds (.toolResult message :: results) = message.toolCallId :: resultIds results := rfl
      rw [hids] at hmissing
      refine ⟨hmissing.symm.subset mem_cons_self, ih hlater ?_⟩
      have herased := hmissing.erase message.toolCallId
      rwa [erase_cons_head] at herased
    | _ => exact absurd (hresults _ mem_cons_self) (by simp [Message.isToolResult])

theorem pairsUp_systems {run : List Message} (hrun : IsRun run)
    (hrest : pairsUp [] rest) :
    pairsUp [] (run.filter (fun message => !message.isToolResult) ++ rest) := by
  induction run with
  | nil => exact hrest
  | cons head run ih =>
    have hlater : IsRun run := fun message hmessage => hrun message (mem_cons_of_mem head hmessage)
    rcases hrun head mem_cons_self with ⟨result, rfl⟩ | ⟨content, extra, rfl⟩
    · exact ih hlater
    · exact ⟨rfl, ih hlater⟩

theorem resultIds_filter (messages : List Message) :
    resultIds (messages.filter Message.isToolResult) = resultIds messages := by
  induction messages with
  | nil => rfl
  | cons head rest ih =>
    cases head with
    | toolResult message => exact congrArg (message.toolCallId :: ·) ih
    | _ => simpa [resultIds, Message.isToolResult] using ih

theorem resultIds_synthetic (some' : List ToolCall) :
    resultIds (some'.map (synthetic now)) = some'.map fun call => call.id := by
  induction some' with
  | nil => rfl
  | cons call rest ih => exact congrArg (call.id :: ·) ih

/-- The calls of an orderly turn are those with a result and those given one. -/
theorem callIds_perm_results {message : AssistantMessage} {run : List Message}
    (hcalls : message.callIds.Nodup) (hdistinct : (resultIds run).Nodup)
    (hanswers : ∀ id ∈ resultIds run, id ∈ message.callIds) :
    message.callIds.Perm (resultIds (run.filter Message.isToolResult ++
      (message.toolCalls.filter fun call => call.id ∉ resultIds run).map (synthetic now))) := by
  have hids : resultIds (run.filter Message.isToolResult ++
      (message.toolCalls.filter fun call => call.id ∉ resultIds run).map (synthetic now)) =
      resultIds run ++ message.callIds.filter fun id => id ∉ resultIds run := by
    rw [resultIds, filterMap_append]
    have hgiven := resultIds_filter run
    have hmade := resultIds_synthetic now (message.toolCalls.filter fun call => call.id ∉ resultIds run)
    rw [resultIds] at hgiven hmade
    rw [hgiven, hmade, AssistantMessage.callIds, filter_map]
    rfl
  rw [hids, perm_ext_iff_of_nodup hcalls]
  · intro id
    simp only [mem_append, mem_filter, decide_eq_true_eq]
    constructor
    · intro hid
      by_cases hgiven : id ∈ resultIds run
      · exact .inl hgiven
      · exact .inr ⟨hid, hgiven⟩
    rintro (hgiven | hmade)
    · exact hanswers id hgiven
    · exact hmade.1
  apply hdistinct.append (hcalls.filter _)
  intro id hgiven hmade
  simp [hgiven] at hmade

theorem pairsUp_output {turn : Turn} (horderly : turn.Orderly)
    (hrest : pairsUp [] rest) : pairsUp [] (turn.output now ++ rest) := by
  obtain ⟨head, run⟩ := turn
  have hsystems := pairsUp_systems horderly.run hrest
  rcases horderly.head with ⟨message, rfl⟩ | ⟨content, extra, rfl⟩
  · simp only [Turn.output, Turn.systems, Turn.results]
    by_cases herrored : message.isErrored = true
    · rw [if_pos herrored]
      exact hsystems
    have hfine : message.isErrored = false := by simpa using herrored
    rw [if_neg herrored]
    have hanswers (id : JsString) (hid : id ∈ resultIds run) : id ∈ message.callIds := by
      obtain ⟨other, heq, -, hmem⟩ := horderly.answers id hid
      cases heq
      exact hmem
    have hperm := callIds_perm_results now (horderly.calls message rfl hfine) horderly.distinct hanswers
    have hpaired := pairsUp_results (by
      intro other hother
      rcases mem_append.1 hother with hgiven | hmade
      · exact (mem_filter.1 hgiven).2
      obtain ⟨call, -, rfl⟩ := mem_map.1 hmade
      rfl) hperm hsystems
    rw [cons_append, cons_append, cons_append]
    refine ⟨rfl, ?_⟩
    simpa only [append_assoc] using hpaired
  · exact ⟨rfl, hsystems⟩

theorem pairsUp_paired (hformed : wellFormed [] messages) : pairsUp [] (paired now messages) := by
  have hlead : resultIds (turns messages).1 = [] := by
    apply eq_nil_iff_forall_not_mem.2
    intro id hid
    exact not_mem_nil ((hformed.lead nodup_nil).2 id hid)
  have hturns : ∀ all : List Turn, (∀ turn ∈ all, turn.Orderly) →
      pairsUp [] (all.flatMap (Turn.output now)) := by
    intro all horderly
    induction all with
    | nil => rfl
    | cons turn rest ih =>
      rw [flatMap_cons]
      exact pairsUp_output now (horderly turn mem_cons_self)
        (ih fun other hother => horderly other (mem_cons_of_mem turn hother))
  have hall := pairsUp_systems (isRun_lead messages) (hturns _ hformed.orderly)
  rwa [(filter_run_of_no_results hlead).1] at hall

theorem kept_append (messages others : List Message) : kept
    (messages ++ others) = kept messages ++ kept others :=
  filter_append messages others

/-- Results are not kept messages, so a run keeps its system messages. -/
theorem kept_run (run : List Message) :
    kept (run.filter Message.isToolResult) = [] ∧
      kept (run.filter fun message => !message.isToolResult) = kept run := by
  induction run with
  | nil => exact ⟨rfl, rfl⟩
  | cons head rest ih =>
    obtain ⟨hresults, hsystems⟩ := ih
    have hsplit (head : Message) : kept (head :: rest) = kept [head] ++ kept rest := kept_append [head] rest
    cases head with
    | toolResult message => exact ⟨hresults, hsystems⟩
    | assistant message =>
      refine ⟨hresults, ?_⟩
      rw [hsplit, ← hsystems]
      exact kept_append [.assistant message] _
    | user content extra =>
      refine ⟨hresults, ?_⟩
      rw [hsplit, ← hsystems]
      exact kept_append [.user content extra] _
    | system content extra =>
      refine ⟨hresults, ?_⟩
      rw [hsplit, ← hsystems]
      exact kept_append [.system content extra] _

theorem kept_synthetic (some' : List ToolCall) : kept (some'.map (synthetic now)) = [] := by
  induction some' with
  | nil => rfl
  | cons call rest ih => exact ih

/-- A turn is sent with all its messages that are kept, in their order. -/
theorem kept_output {turn : Turn} (horderly : turn.Orderly) :
    kept (turn.output now) = kept turn.messages := by
  obtain ⟨head, run⟩ := turn
  obtain ⟨hresults, hsystems⟩ := kept_run run
  have hsplit (head : Message) (rest : List Message) : kept (head :: rest) = kept [head] ++ kept rest :=
    kept_append [head] rest
  rcases horderly.head with ⟨message, rfl⟩ | ⟨content, extra, rfl⟩
  · simp only [Turn.output, Turn.systems, Turn.results, Turn.messages]
    rw [hsplit _ run]
    by_cases herrored : message.isErrored = true
    · rw [if_pos herrored, hsystems]
      simp [kept, Message.isKept, herrored]
    rw [if_neg herrored, cons_append, cons_append, hsplit, kept_append, kept_append, hresults,
      kept_synthetic, hsystems, append_assoc, nil_append, nil_append]
  simp only [Turn.output, Turn.systems, Turn.messages]
  rw [hsplit, hsystems, ← hsplit]

theorem kept_paired (hformed : wellFormed [] messages) :
    kept (paired now messages) = kept messages := by
  have hturns : ∀ all : List Turn, (∀ turn ∈ all, turn.Orderly) →
      kept (all.flatMap (Turn.output now)) = kept (all.flatMap Turn.messages) := by
    intro all horderly
    induction all with
    | nil => rfl
    | cons turn rest ih =>
      rw [flatMap_cons, flatMap_cons, kept_append, kept_append,
        kept_output now (horderly turn mem_cons_self),
        ih fun other hother => horderly other (mem_cons_of_mem turn hother)]
  rw [paired, kept_append, hturns _ hformed.orderly, ← kept_append, turns_messages]

end Hummin.Provider
