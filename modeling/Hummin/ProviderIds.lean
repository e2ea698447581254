/-
The ids a transcript goes out with. The calls of an assistant message get their output ids;
a result gets the last id that any message rewrote its call's id to.
-/
import Hummin.ProviderTranscript

namespace Hummin.Provider

open List PropertyList

variable (model : Model) (normalize : Option Normalizer)

def AssistantMessage.callIds (message : AssistantMessage) : List JsString :=
  message.toolCalls.map fun call => call.id

/-- An assistant message as it goes out. -/
def AssistantMessage.transformed (message : AssistantMessage) : AssistantMessage :=
  { message with
    content := some (transformBlocks model normalize message [] (message.content.getD [])).2 }

/-- Every result carries the output id of its call, `current` the message of that call. -/
def withOutputIds : Option AssistantMessage → List Message → List Message
  | _, [] => []
  | _, .assistant message :: rest =>
    .assistant (message.transformed model normalize) :: withOutputIds (some message) rest
  | current, .toolResult message :: rest =>
    .toolResult { message with toolCallId := match current with
      | some source => outputId model normalize source message.toolCallId
      | none => message.toolCallId } :: withOutputIds current rest
  | current, .system content extra :: rest => .system content extra :: withOutputIds current rest
  | _, .user content extra :: rest => .user content extra :: withOutputIds none rest

/-- The last other id some call `id` of the messages was given, `last` before them. -/
def rewrittenTo (id : JsString) : Option JsString → List Message → Option JsString
  | last, [] => last
  | last, .assistant message :: rest =>
    rewrittenTo id (if id ∈ message.callIds ∧ outputId model normalize message id ≠ id then
      some (outputId model normalize message id) else last) rest
  | last, _ :: rest => rewrittenTo id last rest

/-- The calls answered before the next user or assistant message. -/
def answered : List Message → List JsString
  | .toolResult message :: rest => message.toolCallId :: answered rest
  | .system _ _ :: rest => answered rest
  | _ => []

/-- A call `id` of `message` is told apart by its id: it is given an id that is not empty, or
it keeps an id that the messages before did not, at last, give another one. -/
def Traceable (before : List Message) (message : AssistantMessage) (id : JsString) : Prop :=
  if outputId model normalize message id = id then
    ∀ other, rewrittenTo model normalize id none before = some other → other = []
  else outputId model normalize message id ≠ []

/-- The messages in which each result follows its call: `due` are the calls a result may still
answer. -/
def wellFormed : List JsString → List Message → Prop
  | _, [] => True
  | _, .assistant message :: rest =>
    message.callIds.Nodup ∧ wellFormed (if message.isErrored then [] else message.callIds) rest
  | due, .toolResult message :: rest =>
    message.toolCallId ∈ due ∧ wellFormed (due.erase message.toolCallId) rest
  | due, .system _ _ :: rest => wellFormed due rest
  | _, .user _ _ :: rest => wellFormed [] rest

/-! ### The blocks of one message -/

section Blocks

variable {model normalize} {message : AssistantMessage}

variable (idMap : List (JsString × JsString)) (block : Block)

/-- What is left of a block does not depend on the id map. -/
theorem transformBlock_snd :
    (transformBlock model normalize message idMap block).2 =
      (transformBlock model normalize message [] block).2 := by
  cases block with
  | thinking thinking signature redacted =>
    simp only [transformBlock]
    split
    · rfl
    split
    · rfl
    · split <;> rfl
  | _ =>
    simp only [transformBlock]
    split <;> rfl

variable (blocks : List Block)

theorem transformBlocks_snd :
    (transformBlocks model normalize message idMap blocks).2 =
      (transformBlocks model normalize message [] blocks).2 := by
  induction blocks generalizing idMap with
  | nil => rfl
  | cons block rest ih =>
    simp only [transformBlocks]
    rw [transformBlock_snd idMap block, ih (transformBlock model normalize message idMap block).1,
      ih (transformBlock model normalize message [] block).1]

/-- The calls among some blocks. -/
def calls (blocks : List Block) : List ToolCall :=
  blocks.filterMap fun block => match block with
    | .toolCall call => some call
    | _ => none

theorem calls_append (others : List Block) : calls
    (blocks ++ others) = calls blocks ++ calls others :=
  filterMap_append

/-- A block goes out as a call just when it is one, with its output id. -/
theorem transformBlock_calls :
    (calls (transformBlock model normalize message idMap block).2).map (fun call => call.id) =
      (calls [block]).map (fun call => outputId model normalize message call.id) := by
  cases block with
  | text text signature =>
    simp only [transformBlock]
    split <;> rfl
  | thinking thinking signature redacted =>
    simp only [transformBlock]
    split
    · rfl
    split
    · rfl
    · split <;> rfl
  | toolCall call =>
    simp only [transformBlock]
    split
    · rfl
    rename_i hkept
    have hkept := not_not.1 hkept
    split
    · simpa [calls] using hkept.symm
    · simpa [calls] using hkept.symm

theorem transformBlocks_calls (idMap : List (JsString × JsString)) (blocks : List Block) :
    (calls (transformBlocks model normalize message idMap blocks).2).map (fun call => call.id) =
      (calls blocks).map (fun call => outputId model normalize message call.id) := by
  induction blocks generalizing idMap with
  | nil => rfl
  | cons block rest ih =>
    have hsplit : calls (block :: rest) = calls [block] ++ calls rest :=
      calls_append [block] rest
    rw [hsplit, transformBlocks, calls_append, map_append, map_append, transformBlock_calls, ih]

theorem callIds_transformed (message : AssistantMessage) :
    (message.transformed model normalize).callIds =
      message.callIds.map (outputId model normalize message) := by
  have hids := @transformBlocks_calls model normalize message [] (message.content.getD [])
  rw [AssistantMessage.callIds, AssistantMessage.callIds, map_map]
  exact hids

theorem isErrored_transformed (message : AssistantMessage) :
    (message.transformed model normalize).isErrored = message.isErrored := rfl

/-- One block's part in the id map. -/
theorem get_transformBlock (id : JsString) (idMap : List (JsString × JsString)) (block : Block) :
    get id (transformBlock model normalize message idMap block).1 =
      if id ∈ (calls [block]).map (fun call => call.id) ∧ outputId model normalize message id ≠ id then
        some (outputId model normalize message id) else get id idMap := by
  cases block with
  | text text signature =>
    simp only [transformBlock]
    split <;> simp [calls]
  | thinking thinking signature redacted =>
    simp only [transformBlock]
    split
    · simp [calls]
    split
    · simp [calls]
    · split <;> simp [calls]
  | toolCall call =>
    simp only [transformBlock]
    by_cases hsame : id = call.id
    · subst hsame
      split
      next hchanged =>
        simp [calls, JsMap.get_set, hchanged]
      next hkept =>
        have hkept := not_not.1 hkept
        simp [hkept]
    split
    · simp [calls, JsMap.get_set, hsame]
    · simp [calls, hsame]

theorem get_transformBlocks (id : JsString) (idMap : List (JsString × JsString))
    (blocks : List Block) :
    get id (transformBlocks model normalize message idMap blocks).1 =
      if id ∈ (calls blocks).map (fun call => call.id) ∧ outputId model normalize message id ≠ id then
        some (outputId model normalize message id) else get id idMap := by
  induction blocks generalizing idMap with
  | nil => simp [transformBlocks, calls]
  | cons block rest ih =>
    have hsplit : calls (block :: rest) = calls [block] ++ calls rest :=
      calls_append [block] rest
    rw [transformBlocks, ih, get_transformBlock, hsplit, map_append]
    by_cases hkept : outputId model normalize message id = id
    · simp [hkept]
    by_cases hrest : id ∈ (calls rest).map fun call => call.id
    · rw [if_pos ⟨hrest, hkept⟩, if_pos ⟨mem_append_right _ hrest, hkept⟩]
    rw [if_neg fun h => hrest h.1]
    simp only [mem_append, hrest, or_false]

end Blocks

/-! ### The first pass -/

/-- The id map after some messages. -/
def idMapAfter (idMap : List (JsString × JsString)) : List Message → List (JsString × JsString)
  | [] => idMap
  | .assistant message :: rest =>
    idMapAfter (transformBlocks model normalize message idMap (message.content.getD [])).1 rest
  | _ :: rest => idMapAfter idMap rest

theorem get_idMapAfter (id : JsString) (idMap : List (JsString × JsString))
    (messages : List Message) :
    get id (idMapAfter model normalize idMap messages) =
      rewrittenTo model normalize id (get id idMap) messages := by
  induction messages generalizing idMap with
  | nil => rfl
  | cons message rest ih =>
    cases message with
    | assistant message =>
      simp only [idMapAfter, rewrittenTo]
      rw [ih, get_transformBlocks]
      rfl
    | _ =>
      exact ih idMap

/-- The id a result gets when the map has `found` for its call. -/
def resolved (id : JsString) (found : Option JsString) : JsString :=
  match found with
  | some (unit :: units) => unit :: units
  | _ => id

/-- The id a result of `current`'s calls should get. -/
def dueId (current : Option AssistantMessage) (id : JsString) : JsString :=
  match current with
  | some source => outputId model normalize source id
  | none => id

variable {open' : List JsString} (idMap : List (JsString × JsString))

theorem firstPass_toolResult (message : ToolResultMessage)
    (rest : List Message) :
    firstPass model normalize idMap (.toolResult message :: rest) =
      .toolResult { message with
        toolCallId := resolved message.toolCallId (get message.toolCallId idMap) } ::
        firstPass model normalize idMap rest := by
  rw [firstPass]
  rcases get message.toolCallId idMap with _ | _ | ⟨unit, units⟩ <;> rfl

theorem withOutputIds_toolResult (current : Option AssistantMessage) (message : ToolResultMessage)
    (rest : List Message) :
    withOutputIds model normalize current (.toolResult message :: rest) =
      .toolResult { message with toolCallId := dueId model normalize current message.toolCallId } ::
        withOutputIds model normalize current rest := rfl

variable {messages : List Message}

/-- The results of a well-formed run answer calls that are due, each once. -/
theorem wellFormed.answered_mem (hformed : wellFormed open' messages) {id : JsString}
    (hid : id ∈ answered messages) : id ∈ open' := by
  induction messages generalizing open' with
  | nil => simp [answered] at hid
  | cons message rest ih =>
    cases message with
    | toolResult message =>
      simp only [answered, mem_cons] at hid
      rcases hid with rfl | hrest
      · exact hformed.1
      · exact mem_of_mem_erase (ih hformed.2 hrest)
    | system content extra => exact ih hformed hid
    | _ => simp [answered] at hid

theorem wellFormed.answered_nil (hformed : wellFormed [] messages) : answered messages = [] := by
  apply eq_nil_iff_forall_not_mem.2
  intro id hid
  exact not_mem_nil (hformed.answered_mem hid)

/-- After each assistant message, the map has the output id for every result of its run. -/
def RunsResolve (idMap : List (JsString × JsString)) (messages : List Message) : Prop :=
  ∀ before message after, messages = before ++ .assistant message :: after →
    ∀ id ∈ answered after,
      resolved id (PropertyList.get id
        (idMapAfter model normalize idMap (before ++ [Message.assistant message]))) =
        outputId model normalize message id

theorem runsResolve_cons_assistant (message : AssistantMessage) (rest : List Message) :
    RunsResolve model normalize idMap (.assistant message :: rest) ↔
      (∀ id ∈ answered rest, resolved id (get id
        (transformBlocks model normalize message idMap (message.content.getD [])).1) =
          outputId model normalize message id) ∧
      RunsResolve model normalize
        (transformBlocks model normalize message idMap (message.content.getD [])).1 rest := by
  constructor
  · intro hruns
    refine ⟨hruns [] message rest rfl, ?_⟩
    intro before other after hrest
    exact hruns (.assistant message :: before) other after (by rw [hrest]; rfl)
  rintro ⟨hfirst, hrest⟩ before other after heq
  cases before with
  | nil =>
    obtain ⟨hhead, rfl⟩ := cons.inj heq
    cases hhead
    exact hfirst
  | cons head before =>
    obtain ⟨rfl, htail⟩ := cons.inj heq
    exact hrest before other after htail

theorem runsResolve_cons_other {head : Message}
    (hhead : ∀ message, head ≠ .assistant message) (rest : List Message) :
    RunsResolve model normalize idMap (head :: rest) ↔ RunsResolve model normalize idMap rest := by
  have hmap (messages : List Message) :
      idMapAfter model normalize idMap (head :: messages) = idMapAfter model normalize idMap messages := by
    cases head with
    | assistant message => exact absurd rfl (hhead message)
    | _ => rfl
  constructor
  · intro hruns before message after hrest id hid
    have hfound := hruns (head :: before) message after (by rw [hrest]; rfl) id hid
    rwa [cons_append, hmap] at hfound
  intro hruns before message after heq id hid
  cases before with
  | nil => exact absurd (cons.inj heq).1 (hhead message)
  | cons first before =>
    obtain ⟨rfl, htail⟩ := cons.inj heq
    rw [cons_append, hmap]
    exact hruns before message after htail id hid

/-- The first pass gives every result the output id of its call just when the map has that
id for it, in each run of results. -/
theorem firstPass_eq_iff (current : Option AssistantMessage) {messages : List Message}
    (hformed : wellFormed open' messages) :
    firstPass model normalize idMap messages = withOutputIds model normalize current messages ↔
      (∀ id ∈ answered messages, resolved id (get id idMap) = dueId model normalize current id) ∧
      RunsResolve model normalize idMap messages := by
  induction messages generalizing open' idMap current with
  | nil => simp [firstPass, withOutputIds, answered, RunsResolve]
  | cons head rest ih =>
    cases head with
    | assistant message =>
      have hsame : AssistantMessage.mk
          (some (transformBlocks model normalize message idMap (message.content.getD [])).2)
          message.api message.provider message.model message.stopReason message.rest =
          message.transformed model normalize := by
        rw [transformBlocks_snd]
        rfl
      simp only [firstPass, withOutputIds, answered, cons.injEq, hsame, true_and,
        not_mem_nil, false_imp_iff, implies_true]
      rw [runsResolve_cons_assistant]
      exact ih _ (some message) hformed.2
    | toolResult message =>
      rw [runsResolve_cons_other model normalize idMap (by simp)]
      have hrest := ih idMap current hformed.2
      rw [firstPass_toolResult, withOutputIds_toolResult]
      simp only [cons.injEq, hrest, answered, mem_cons,
        Message.toolResult.injEq, ToolResultMessage.mk.injEq, and_true, forall_eq_or_imp]
      rw [and_assoc]
    | system content extra =>
      rw [runsResolve_cons_other model normalize idMap (by simp)]
      have hrest := ih idMap current hformed
      simp only [firstPass, withOutputIds, cons.injEq, true_and, answered]
      exact hrest
    | user content extra =>
      rw [runsResolve_cons_other model normalize idMap (by simp)]
      have hrest := ih idMap none hformed
      have hnone : answered rest = [] := wellFormed.answered_nil hformed
      simp only [hnone, not_mem_nil, false_imp_iff, implies_true, true_and] at hrest
      simp only [firstPass, withOutputIds, cons.injEq, true_and, answered, not_mem_nil,
        false_imp_iff, implies_true]
      exact hrest

variable {id : JsString}

theorem rewrittenTo_ne {last : Option JsString} (hlast : ∀ other, last = some other → other ≠ id)
    (messages : List Message) {other : JsString}
    (hother : rewrittenTo model normalize id last messages = some other) : other ≠ id := by
  induction messages generalizing last with
  | nil => exact hlast other hother
  | cons head rest ih =>
    cases head with
    | assistant message =>
      apply ih _ hother
      intro next hnext
      split at hnext
      next hchanged =>
        rw [← Option.some.inj hnext]
        exact hchanged.2
      · exact hlast next hnext
    | _ => exact ih hlast hother

theorem rewrittenTo_snoc {message : AssistantMessage} {id : JsString} (hid : id ∈ message.callIds)
    (last : Option JsString) (before : List Message) :
    rewrittenTo model normalize id last (before ++ [Message.assistant message]) =
      if outputId model normalize message id ≠ id then some (outputId model normalize message id)
      else rewrittenTo model normalize id last before := by
  induction before generalizing last with
  | nil => simp [rewrittenTo, hid]
  | cons head before ih =>
    cases head with
    | assistant other => exact ih _
    | _ => exact ih last

/-- What the map has for the calls of a run is the condition of `Traceable`. -/
theorem resolved_iff_traceable (before : List Message) {message : AssistantMessage} {id : JsString}
    (hid : id ∈ message.callIds) :
    resolved id (get id (idMapAfter model normalize [] (before ++ [Message.assistant message]))) =
        outputId model normalize message id ↔
      Traceable model normalize before message id := by
  rw [get_idMapAfter, rewrittenTo_snoc model normalize hid, Traceable]
  by_cases hkept : outputId model normalize message id = id
  · rw [if_neg (not_not.2 hkept), if_pos hkept, hkept]
    have hnever (other : JsString) (hother : rewrittenTo model normalize id none before = some other) :
        other ≠ id :=
      rewrittenTo_ne model normalize (by simp) before hother
    show resolved id (rewrittenTo model normalize id none before) = id ↔ _
    rcases hfound : rewrittenTo model normalize id none before with _ | _ | ⟨unit, units⟩
    · simp [resolved]
    · simp [resolved]
    · simpa [resolved] using hnever _ hfound
  rw [if_pos hkept, if_neg hkept]
  rcases hgiven : outputId model normalize message id with _ | ⟨unit, units⟩
  · rw [hgiven] at hkept
    simpa [resolved] using Ne.symm hkept
  · simp [resolved]

theorem wellFormed.after_assistant {before : List Message}
    {message : AssistantMessage} {after : List Message}
    (hformed : wellFormed open' (before ++ .assistant message :: after)) :
    message.callIds.Nodup ∧ wellFormed (if message.isErrored then [] else message.callIds) after := by
  induction before generalizing open' with
  | nil => exact hformed
  | cons head before ih =>
    cases head with
    | system content extra => exact ih hformed
    | user content extra => exact ih hformed
    | _ => exact ih hformed.2

/-- The first pass gives every result of a well-formed transcript its call's output id just
when the answered calls are told apart by their ids. -/
theorem firstPass_eq_iff_traceable (hformed : wellFormed [] messages) :
    firstPass model normalize [] messages = withOutputIds model normalize none messages ↔
      ∀ before message after, messages = before ++ .assistant message :: after →
        ∀ id ∈ answered after, Traceable model normalize before message id := by
  rw [firstPass_eq_iff model normalize [] none hformed, hformed.answered_nil]
  simp only [not_mem_nil, false_imp_iff, implies_true, true_and]
  have hone (before : List Message) (message : AssistantMessage) (after : List Message)
      (heq : messages = before ++ .assistant message :: after) (id : JsString) (hid : id ∈ answered after) :=
    resolved_iff_traceable model normalize before (show id ∈ message.callIds by
      subst heq
      have hdue := hformed.after_assistant.2.answered_mem hid
      split at hdue
      · simp at hdue
      · exact hdue)
  constructor
  · intro hruns before message after heq id hid
    exact (hone before message after heq id hid).1 (hruns before message after heq id hid)
  intro hruns before message after heq id hid
  exact (hone before message after heq id hid).2 (hruns before message after heq id hid)

end Hummin.Provider
