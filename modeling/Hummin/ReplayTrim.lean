/-
Replay trimming: in the request for the next turn the completed turns lose their reasoning
and the middle of long tool results.  Everything from the last user message on is replayed
as it is.
-/
import Hummin.CompactionScan

namespace Hummin.ReplayTrim

open List

/-- A string, no longer than the language allows one to be. -/
structure Text where
  units : JsString
  length_lt : units.length < 2 ^ 53

structure TextContent where
  text : Text
  textSignature : Option JsString

structure ThinkingContent where
  thinking : JsString
  thinkingSignature : Option JsString
  redacted : Bool

/-! What the trimming only carries along is of an arbitrary type. -/

inductive AssistantBlock (Rest : Type) where
  | text (content : TextContent)
  | thinking (content : ThinkingContent)
  | toolCall (id : JsString) (rest : Rest)

inductive ResultBlock (Rest : Type) where
  | text (content : TextContent)
  | image (rest : Rest)

inductive Message (Rest : Type) where
  | system (rest : Rest)
  | user (rest : Rest)
  | assistant (content : List (AssistantBlock Rest)) (rest : Rest)
  | toolResult (toolCallId : JsString) (content : List (ResultBlock Rest)) (rest : Rest)

structure Context (Rest : Type) where
  messages : List (Message Rest)
  rest : Rest

inductive Role where
  | system
  | user
  | assistant
  | toolResult
deriving DecidableEq

structure Options where
  thinking : Bool
  toolResults : Bool
  toolResultCap : Nat
  toolResultTail : Nat

variable {Rest : Type} {options : Options} {api : JsString} {text : Text}

def Message.role : Message Rest → Role
  | .system _ => .system
  | .user _ => .user
  | .assistant .. => .assistant
  | .toolResult .. => .toolResult

def AssistantBlock.callId : AssistantBlock Rest → Option JsString
  | .toolCall id _ => some id
  | _ => none

/-- The ids of a message's tool calls, or of the call it is the result of. -/
def Message.callIds : Message Rest → List JsString
  | .assistant content _ => content.filterMap AssistantBlock.callId
  | .toolResult toolCallId .. => [toolCallId]
  | _ => []

/-- An assistant message without content. -/
def Message.isEmptied : Message Rest → Bool
  | .assistant content _ => content.isEmpty
  | _ => false

/-! ### Tool results -/

/-- `PRUNE_MARGIN` -/
def pruneMargin : Nat := 200

def marker (cut : Nat) : JsString :=
  js "\n[old tool result trimmed: ".toList ++ decimal cut ++
    js " chars cut to save context; rerun the tool if you need the full output]\n".toList

def Options.limit (options : Options) : Nat :=
  options.toolResultCap + options.toolResultTail + pruneMargin

def prunedUnits (options : Options) (text : JsString) : JsString :=
  let cut := text.length - options.toolResultCap - options.toolResultTail
  let tail :=
    if 0 < options.toolResultTail then text.drop (text.length - options.toolResultTail) else []
  text.take options.toolResultCap ++ marker cut ++ tail

theorem length_marker {cut : Nat} (hcut : cut < 2 ^ 53) : (marker cut).length ≤ 115 := by
  have hdigits : (decimal cut).length ≤ 16 := by
    unfold decimal
    split
    · simp
    rw [length_map, length_reverse, Nat.digits_length_le_iff (by decide)]
    omega
  have hframe : (marker cut).length = 27 + (decimal cut).length + 72 := by
    simp only [marker, js, length_append, length_map]
    rfl
  omega

/-- What a pruned text is left with is within the margin: the marker fits in it. -/
theorem length_prunedUnits {units : JsString} (hlt : units.length < 2 ^ 53) :
    (prunedUnits options units).length ≤ options.limit := by
  have hmarker := length_marker
    (lt_of_le_of_lt (Nat.sub_le _ _) (lt_of_le_of_lt (Nat.sub_le _ _) hlt) :
      units.length - options.toolResultCap - options.toolResultTail < 2 ^ 53)
  simp only [prunedUnits, Options.limit, pruneMargin, length_append, length_take]
  split
  · rw [length_drop]
    omega
  rw [length_nil]
  omega

def pruneText (text : Text) (options : Options) : Option Text :=
  if hlimit : text.units.length ≤ options.limit then none
  else some ⟨prunedUnits options text.units,
    (length_prunedUnits text.length_lt).trans_lt ((not_le.mp hlimit).trans text.length_lt)⟩

theorem pruneText_pruneText {pruned : Text} (hpruned : pruneText text options = some pruned) :
    pruneText pruned options = none := by
  unfold pruneText at hpruned
  split at hpruned
  · cases hpruned
  cases hpruned
  exact dif_pos (length_prunedUnits text.length_lt)

/-- The block that replaces a text block, if it is pruned: its signature is lost. -/
def pruneBlock (options : Options) : ResultBlock Rest → Option (ResultBlock Rest)
  | .text content => (pruneText content.text options).map fun text => .text ⟨text, none⟩
  | .image _ => none

theorem pruneBlock_pruneBlock {block pruned : ResultBlock Rest}
    (hpruned : pruneBlock options block = some pruned) : pruneBlock options pruned = none := by
  cases block with
  | image _ => cases hpruned
  | text content =>
    obtain ⟨text, htext, rfl⟩ := Option.map_eq_some_iff.mp hpruned
    exact Option.map_eq_none_iff.mpr (pruneText_pruneText htext)

/-! ### Reasoning -/

def isOpenAICompletionsReasoningField (field : JsString) : Bool :=
  field ∈ [js "reasoning".toList, js "reasoning_content".toList, js "reasoning_text".toList]

def stripThinking (api : JsString) (block : ThinkingContent) : Bool :=
  if block.redacted then false
  else if api = js "anthropic-messages".toList then true
  else if api = js "openai-completions".toList then
    match block.thinkingSignature with
    | none => true
    | some signature =>
      (CompactionScan.trim signature).length == 0 || isOpenAICompletionsReasoningField signature
  else false

def keeps (api : JsString) : AssistantBlock Rest → Bool
  | .thinking content => !stripThinking api content
  | _ => true

/-! ### Messages -/

/-- The message that replaces one of a completed turn, if it is rewritten. -/
def rewrite (api : JsString) (options : Options) : Message Rest → Option (Message Rest)
  | .assistant content rest =>
    if options.thinking then
      let kept := content.filter (keeps api)
      -- A message of nothing but reasoning stays as it is.
      if kept.length = 0 then none
      else if kept.length ≠ content.length then some (.assistant kept rest)
      else none
    else none
  | .toolResult toolCallId content rest =>
    if options.toolResults then
      if content.any fun block => (pruneBlock options block).isSome then
        some (.toolResult toolCallId
          (content.map fun block => (pruneBlock options block).getD block) rest)
      else none
    else none
  | _ => none

/-- The index of the last user message. -/
def lastUser : Nat → Option Nat → List Role → Option Nat
  | _, last, [] => last
  | index, last, role :: roles =>
    lastUser (index + 1) (if role = .user then some index else last) roles

def Context.lastUser (context : Context Rest) : Option Nat :=
  ReplayTrim.lastUser 0 none (context.messages.map Message.role)

def trimReplayContext (context : Context Rest) (api : JsString) (options : Options) :
    Context Rest :=
  if ¬ options.thinking ∧ ¬ options.toolResults then context
  else
    match context.lastUser with
    | none => context
    | some 0 => context
    | some boundary =>
      let completed := context.messages.take boundary
      if completed.any fun message => (rewrite api options message).isSome then
        { context with
          messages := completed.map (fun message => (rewrite api options message).getD message) ++
            context.messages.drop boundary }
      else context

/-- What becomes of a message of a completed turn. -/
def rewritten (api : JsString) (options : Options) (message : Message Rest) : Message Rest :=
  (rewrite api options message).getD message

/-- What a rewrite does: it keeps the role, the ids and that there is content, and a second
one has nothing to do. -/
theorem rewrite_cases {message after : Message Rest}
    (hafter : rewrite api options message = some after) :
    after.role = message.role ∧ after.callIds = message.callIds ∧
      after.isEmptied = message.isEmptied ∧ rewrite api options after = none := by
  cases message with
  | system _ => cases hafter
  | user _ => cases hafter
  | assistant content rest =>
    simp only [rewrite, ite_eq_iff, reduceCtorEq, and_false, or_false, false_or,
      Option.some.injEq] at hafter
    obtain ⟨hthinking, hkept, hlength, rfl⟩ := hafter
    refine ⟨rfl, ?_, ?_, ?_⟩
    · -- Only reasoning is dropped, which has no id.
      simp only [Message.callIds, filterMap_filter]
      refine filterMap_congr fun block _ => ?_
      cases block <;> simp [keeps, AssistantBlock.callId]
    · have hkeeps : content.filter (keeps api) ≠ [] := fun hnil => hkept (by simp [hnil])
      have hcontent : content ≠ [] := fun hnil => hkeeps (by simp [hnil])
      rw [Message.isEmptied, Message.isEmptied, isEmpty_eq_false_iff.mpr hkeeps,
        isEmpty_eq_false_iff.mpr hcontent]
    · simp [rewrite, filter_filter]
  | toolResult toolCallId content rest =>
    simp only [rewrite, ite_eq_iff, reduceCtorEq, and_false, or_false, Option.some.injEq]
      at hafter
    obtain ⟨htools, hany, rfl⟩ := hafter
    refine ⟨rfl, rfl, rfl, ?_⟩
    have hnone : ∀ block ∈ content,
        pruneBlock options ((pruneBlock options block).getD block) = none := by
      intro block _
      cases hblock : pruneBlock options block with
      | none => exact hblock
      | some pruned => exact pruneBlock_pruneBlock hblock
    simpa [rewrite] using fun _ => hnone

theorem rewritten_cases (message : Message Rest) :
    (rewritten api options message).role = message.role ∧
      (rewritten api options message).callIds = message.callIds ∧
      (rewritten api options message).isEmptied = message.isEmptied ∧
      rewrite api options (rewritten api options message) = none := by
  unfold rewritten
  cases hafter : rewrite api options message with
  | none => exact ⟨rfl, rfl, rfl, hafter⟩
  | some after => exact rewrite_cases hafter

/-! ### The boundary -/

theorem lastUser_append (index : Nat) (last : Option Nat) (front back : List Role) :
    lastUser index last (front ++ back) =
      lastUser (index + front.length) (lastUser index last front) back := by
  induction front generalizing index last with
  | nil => rfl
  | cons role front ih => rw [cons_append, lastUser, lastUser, ih, length_cons,
      Nat.add_right_comm, Nat.add_assoc]

theorem lastUser_bounds (index : Nat) (last : Option Nat) (roles : List Role)
    (hlast : last.getD 0 ≤ index) :
    last.getD 0 ≤ (lastUser index last roles).getD 0 ∧
      (lastUser index last roles).getD 0 ≤ index + roles.length := by
  induction roles generalizing index last with
  | nil => exact ⟨le_rfl, hlast⟩
  | cons role roles ih =>
    rw [lastUser, length_cons]
    split
    · have hbounds := ih (index + 1) (some index) (Nat.le_succ index)
      simp only [Option.getD_some] at hbounds
      omega
    have hbounds := ih (index + 1) last (Nat.le_succ_of_le hlast)
    omega

/-- How many messages precede the last user message. -/
def Context.boundary (context : Context Rest) : Nat :=
  context.lastUser.getD 0

variable (context : Context Rest)

theorem Context.boundary_le : context.boundary ≤ context.messages.length := by
  have hbounds := lastUser_bounds 0 none (context.messages.map Message.role) le_rfl
  rw [length_map, Nat.zero_add] at hbounds
  exact hbounds.2

/-- The boundary only moves on as a context grows. -/
theorem Context.boundary_mono (later : List (Message Rest)) (rest : Rest) :
    context.boundary ≤ Context.boundary ⟨context.messages ++ later, rest⟩ := by
  have hle := context.boundary_le
  simp only [Context.boundary, Context.lastUser, map_append, lastUser_append] at hle ⊢
  exact (lastUser_bounds _ _ _ (by simpa using hle)).1

theorem map_rewritten_of_none {messages : List (Message Rest)}
    (hnone : ∀ message ∈ messages, rewrite api options message = none) :
    messages.map (rewritten api options) = messages := by
  rw [map_congr_left fun message hmem => by rw [rewritten, hnone message hmem, Option.getD_none],
    map_id']

theorem rewrite_of_off (hoff : ¬ options.thinking ∧ ¬ options.toolResults)
    (message : Message Rest) : rewrite api options message = none := by
  cases message <;> simp [rewrite, hoff]

/-- Whichever way it returns, the messages before the boundary are rewritten. -/
theorem trimReplayContext_eq : trimReplayContext context api options =
    { context with
      messages := (context.messages.take context.boundary).map (rewritten api options) ++
        context.messages.drop context.boundary } := by
  have hself (hnone : ∀ message ∈ context.messages.take context.boundary,
      rewrite api options message = none) : context = { context with
        messages := (context.messages.take context.boundary).map (rewritten api options) ++
          context.messages.drop context.boundary } := by
    rw [map_rewritten_of_none hnone, take_append_drop]
  unfold trimReplayContext
  split
  next hoff =>
    exact hself fun message _ => rewrite_of_off hoff message
  · split
    next hlast =>
      exact hself (by simp [Context.boundary, hlast])
    next hlast =>
      exact hself (by simp [Context.boundary, hlast])
    next boundary _ hlast =>
      have hboundary : boundary = context.boundary := by rw [Context.boundary, hlast, Option.getD_some]
      subst hboundary
      simp only
      split
      · rfl
      next hany =>
        exact hself (by simpa using hany)

/-- A map of the messages that the rewrite of one leaves alone is left alone. -/
theorem map_trimReplayContext {β : Type} (f : Message Rest → β)
    (hf : ∀ message, f (rewritten api options message) = f message) :
    (trimReplayContext context api options).messages.map f = context.messages.map f := by
  have hcomp : f ∘ rewritten api options = f := funext hf
  rw [trimReplayContext_eq, map_append, map_map, hcomp, ← map_append, take_append_drop]

theorem boundary_trimReplayContext :
    (trimReplayContext context api options).boundary = context.boundary := by
  rw [Context.boundary, Context.lastUser, map_trimReplayContext context _
    fun message => (rewritten_cases message).1]
  rfl

theorem take_trimReplayContext {count : Nat} (hcount : count ≤ context.boundary) :
    (trimReplayContext context api options).messages.take count =
      (context.messages.take count).map (rewritten api options) := by
  have hle := context.boundary_le
  rw [trimReplayContext_eq, take_append_of_le_length (by simp; omega), ← map_take, take_take,
    min_eq_left hcount]

theorem drop_trimReplayContext :
    (trimReplayContext context api options).messages.drop context.boundary =
      context.messages.drop context.boundary := by
  rw [trimReplayContext_eq, drop_left' (by simpa using context.boundary_le)]

theorem trimReplayContext_idempotent :
    trimReplayContext (trimReplayContext context api options) api options =
      trimReplayContext context api options := by
  have hnone : ∀ message ∈ ((trimReplayContext context api options).messages.take
      (trimReplayContext context api options).boundary),
      rewrite api options message = none := by
    rw [boundary_trimReplayContext, take_trimReplayContext context le_rfl]
    intro message hmem
    obtain ⟨before, -, rfl⟩ := mem_map.mp hmem
    exact (rewritten_cases before).2.2.2
  rw [trimReplayContext_eq (trimReplayContext context api options),
    map_rewritten_of_none hnone, take_append_drop]

/-- Trimming keeps the messages, their roles, their ids and that they have content, changes
nothing from the last user message on, has nothing left to do a second time, and what it
makes of the completed turns stays as the context grows. -/
theorem trimReplayContext_stable :
    (trimReplayContext context api options).messages.map Message.role =
      context.messages.map Message.role ∧
    (trimReplayContext context api options).messages.map Message.callIds =
      context.messages.map Message.callIds ∧
    (trimReplayContext context api options).messages.map Message.isEmptied =
      context.messages.map Message.isEmptied ∧
    (trimReplayContext context api options).messages.drop context.boundary =
      context.messages.drop context.boundary ∧
    trimReplayContext (trimReplayContext context api options) api options =
      trimReplayContext context api options ∧
    ∀ (later : List (Message Rest)) (rest : Rest),
      (trimReplayContext ⟨context.messages ++ later, rest⟩ api options).messages.take
          context.boundary =
        (trimReplayContext context api options).messages.take context.boundary := by
  refine ⟨map_trimReplayContext context _ fun message => (rewritten_cases message).1,
    map_trimReplayContext context _ fun message => (rewritten_cases message).2.1,
    map_trimReplayContext context _ fun message => (rewritten_cases message).2.2.1,
    drop_trimReplayContext context,
    trimReplayContext_idempotent context, fun later rest => ?_⟩
  have hmono := context.boundary_mono later rest
  rw [take_trimReplayContext _ hmono, take_trimReplayContext context le_rfl,
    take_append_of_le_length context.boundary_le]

end Hummin.ReplayTrim
