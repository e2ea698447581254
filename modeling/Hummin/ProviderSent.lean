/-
The transcript a provider gets pairs every tool call with one result just when the answered
calls are told apart by their ids. The id map is never cleared: once a message of another
model had its call `id` rewritten, a later call `id` that keeps its id loses its result to
the earlier one.
-/
import Hummin.ProviderPairing

namespace Hummin.Provider

open List

def Message.toolCallIds : Message → List JsString
  | .assistant message => message.callIds
  | .toolResult message => [message.toolCallId]
  | _ => []

/-- The tool-call ids of a transcript. -/
def transcriptIds (messages : List Message) : List JsString := messages.flatMap Message.toolCallIds

/-- The normaliser gives the transcript's ids different ids, whichever message it is for. -/
def InjectiveOn (normalize : Option Normalizer) (messages : List Message) : Prop :=
  ∀ rewrite, normalize = some rewrite → ∀ source, .assistant source ∈ messages.map Message.normalized →
    ∀ id ∈ transcriptIds messages, ∀ other ∈ transcriptIds messages,
      rewrite id source = rewrite other source → id = other

variable (model : Model) (normalize : Option Normalizer)

/-- A message that is not a result, after the first pass. -/
def rewritten (message : Message) : Message :=
  match message with
  | .assistant message => .assistant (message.transformed model normalize)
  | message => message

/-- A message that is not a result, as it goes out. -/
def sent (message : Message) : Message := rewritten model normalize (imageAware model message)

/-- Every answered call is told apart by its id. -/
def ToldApart (messages : List Message) : Prop :=
  ∀ before message after, messages.map (imageAware model) = before ++ .assistant message :: after →
    ∀ id ∈ answered after, Traceable model normalize before message id

/-! ### Images leave the calls alone -/

theorem imageAware_assistant (message : AssistantMessage) :
    imageAware model (.assistant message) =
      .assistant { message with content := some (message.content.getD []) } := by
  unfold imageAware downgradeUnsupportedImages
  split <;> rfl

/-- A result keeps its call. -/
theorem imageAware_toolResult (message : ToolResultMessage) :
    ∃ given : ToolResultMessage, imageAware model (.toolResult message) = .toolResult given ∧
      given.toolCallId = message.toolCallId := by
  unfold imageAware downgradeUnsupportedImages
  split
  · exact ⟨_, rfl, rfl⟩
  · exact ⟨_, rfl, rfl⟩

theorem imageAware_system (content : Content) (extra : Nat) :
    ∃ given, imageAware model (.system content extra) = .system given extra := by
  unfold imageAware downgradeUnsupportedImages
  split
  · cases content <;> exact ⟨_, rfl⟩
  · cases content <;> exact ⟨_, rfl⟩

theorem imageAware_user (content : Content) (extra : Nat) :
    ∃ given, imageAware model (.user content extra) = .user given extra := by
  unfold imageAware downgradeUnsupportedImages
  split
  · cases content <;> exact ⟨_, rfl⟩
  · cases content <;> exact ⟨_, rfl⟩

variable {messages : List Message}

theorem wellFormed_imageAware {open' : List JsString}
    (hformed : wellFormed open' messages) : wellFormed open' (messages.map (imageAware model)) := by
  induction messages generalizing open' with
  | nil => trivial
  | cons head rest ih =>
    cases head with
    | assistant message =>
      rw [map_cons, imageAware_assistant]
      exact ⟨hformed.1, ih hformed.2⟩
    | toolResult message =>
      obtain ⟨given, hgiven, hid⟩ := imageAware_toolResult model message
      rw [map_cons, hgiven, wellFormed, hid]
      exact ⟨hformed.1, ih hformed.2⟩
    | system content extra =>
      obtain ⟨given, hgiven⟩ := imageAware_system model content extra
      rw [map_cons, hgiven]
      exact @ih open' hformed
    | user content extra =>
      obtain ⟨given, hgiven⟩ := imageAware_user model content extra
      rw [map_cons, hgiven]
      exact @ih [] hformed

theorem toolCallIds_imageAware (message : Message) :
    (imageAware model message).toolCallIds = message.toolCallIds := by
  cases message with
  | assistant message =>
    rw [imageAware_assistant]
    rfl
  | toolResult message =>
    obtain ⟨given, hgiven, hid⟩ := imageAware_toolResult model message
    rw [hgiven]
    exact congrArg (fun id => [id]) hid
  | system content extra =>
    obtain ⟨given, hgiven⟩ := imageAware_system model content extra
    rw [hgiven]
    rfl
  | user content extra =>
    obtain ⟨given, hgiven⟩ := imageAware_user model content extra
    rw [hgiven]
    rfl

theorem transcriptIds_imageAware (messages : List Message) :
    transcriptIds (messages.map (imageAware model)) = transcriptIds messages := by
  rw [transcriptIds, flatMap_map]
  exact flatMap_congr fun message _ => toolCallIds_imageAware model message

theorem isKept_imageAware (message : Message) : (imageAware model message).isKept = message.isKept := by
  cases message with
  | assistant message =>
    rw [imageAware_assistant]
    rfl
  | toolResult message =>
    obtain ⟨given, hgiven, -⟩ := imageAware_toolResult model message
    rw [hgiven]
    rfl
  | system content extra =>
    obtain ⟨given, hgiven⟩ := imageAware_system model content extra
    rw [hgiven]
    rfl
  | user content extra =>
    obtain ⟨given, hgiven⟩ := imageAware_user model content extra
    rw [hgiven]
    rfl

/-- The messages the two passes see are of the same kinds. -/
theorem kept_imageAware (messages : List Message) :
    kept (messages.map (imageAware model)) = (kept messages).map (imageAware model) := by
  rw [kept, kept, filter_map]
  congr 1
  apply filter_congr
  intro message _
  exact isKept_imageAware model message

/-! ### The transcript with its output ids -/

theorem kept_withOutputIds (current : Option AssistantMessage) (messages : List Message) :
    kept (withOutputIds model normalize current messages) =
      (kept messages).map (rewritten model normalize) := by
  induction messages generalizing current with
  | nil => rfl
  | cons head rest ih =>
    cases head with
    | assistant message =>
      simp only [withOutputIds, kept, filter_cons] at ih ⊢
      rw [ih]
      show (if (!message.isErrored) = true then _ else _) =
        map _ (if (!message.isErrored) = true then _ else _)
      split <;> rfl
    | toolResult message => exact ih current
    | system content extra => exact congrArg (Message.system content extra :: ·) (ih current)
    | user content extra => exact congrArg (Message.user content extra :: ·) (ih none)

/-- The first pass differs from the output ids in results at most. -/
theorem firstPass_sameButResults (idMap : List (JsString × JsString)) (current : Option AssistantMessage)
    (messages : List Message) :
    List.Forall₂ SameButResults (firstPass model normalize idMap messages)
      (withOutputIds model normalize current messages) := by
  induction messages generalizing idMap current with
  | nil => exact .nil
  | cons head rest ih =>
    cases head with
    | assistant message =>
      refine .cons (.inl ?_) (ih _ _)
      rw [transformBlocks_snd]
      rfl
    | toolResult message =>
      rw [firstPass_toolResult, withOutputIds_toolResult]
      exact .cons (.inr ⟨_, _, rfl, rfl⟩) (ih _ _)
    | _ => exact .cons (.inl rfl) (ih _ _)

theorem map_erase_of_injOn {f : JsString → JsString} {ids : List JsString} {id : JsString}
    (hinj : ∀ other ∈ ids, f other = f id → other = id) :
    (ids.erase id).map f = (ids.map f).erase (f id) := by
  induction ids with
  | nil => rfl
  | cons first rest ih =>
    have hrest := ih fun other hother => hinj other (mem_cons_of_mem first hother)
    by_cases hfirst : first = id
    · rw [hfirst, erase_cons_head, map_cons, erase_cons_head]
    have hne : f first ≠ f id := fun heq => hfirst (hinj first mem_cons_self heq)
    rw [erase_cons_tail (by simpa using hfirst), map_cons, map_cons,
      erase_cons_tail (by simpa using hne), hrest]

/-- Giving the calls their output ids keeps a transcript well formed, where these are
different in each message. -/
theorem wellFormed_withOutputIds {ids : List JsString} {messages : List Message}
    (hids : ∀ id ∈ transcriptIds messages, id ∈ ids)
    (hinj : ∀ message, .assistant message ∈ messages → ∀ id ∈ ids, ∀ other ∈ ids,
      outputId model normalize message id = outputId model normalize message other → id = other)
    {current : Option AssistantMessage} (hcurrent : ∀ id ∈ ids, ∀ other ∈ ids,
      dueId model normalize current id = dueId model normalize current other → id = other)
    {open' : List JsString} (hopen : ∀ id ∈ open', id ∈ ids) (hformed : wellFormed open' messages) :
    wellFormed (open'.map (dueId model normalize current)) (withOutputIds model normalize current messages) := by
  induction messages generalizing current open' with
  | nil => trivial
  | cons head rest ih =>
    have hrest : ∀ id ∈ transcriptIds rest, id ∈ ids := by
      intro id hid
      exact hids id (mem_append_right _ hid)
    have hothers : ∀ message, .assistant message ∈ rest → ∀ id ∈ ids, ∀ other ∈ ids,
        outputId model normalize message id = outputId model normalize message other → id = other :=
      fun message hmessage => hinj message (mem_cons_of_mem head hmessage)
    cases head with
    | assistant message =>
      have hcalls : ∀ id ∈ message.callIds, id ∈ ids := by
        intro id hid
        exact hids id (mem_append_left _ hid)
      have hown := hinj message mem_cons_self
      refine ⟨?_, ?_⟩
      · rw [callIds_transformed]
        apply hformed.1.map_on
        intro id hid other hother heq
        exact hown id (hcalls id hid) other (hcalls other hother) heq
      rw [isErrored_transformed, callIds_transformed]
      have hlater := @ih hrest hothers (some message) hown _ (by
        intro id hid
        split at hid
        · simp at hid
        · exact hcalls id hid) hformed.2
      split at hlater
      next herrored =>
        rw [if_pos herrored]
        exact hlater
      next herrored =>
        rw [if_neg herrored]
        exact hlater
    | toolResult message =>
      obtain ⟨hmem, hformed⟩ := hformed
      rw [withOutputIds_toolResult]
      refine ⟨mem_map_of_mem hmem, ?_⟩
      have hlater := ih hrest hothers hcurrent
        (fun id hid => hopen id (mem_of_mem_erase hid)) hformed
      rwa [map_erase_of_injOn fun other hother heq =>
        hcurrent other (hopen other hother) _ (hopen _ hmem) heq] at hlater
    | system content extra => exact @ih hrest hothers current hcurrent open' hopen hformed
    | user content extra =>
      exact @ih hrest hothers none (fun id _ other _ heq => heq) [] (by simp) hformed

/-! ### The transcript that goes out -/

/-- Every call is paired with one result: the given results in their order under the output
ids of their calls, then one for each unanswered call, directly after the message with the
calls; the other messages are kept in their order. -/
structure PairsCalls (now : Nat) (messages output : List Message) : Prop where
  placed : output = paired now (withOutputIds model normalize none (messages.map (imageAware model)))
  paired : pairsUp [] output
  kept : kept output = (kept messages).map (sent model normalize)

variable {model normalize}

theorem InjectiveOn.outputId (hinj : InjectiveOn normalize messages)
    {message : AssistantMessage} (hmessage : .assistant message ∈ messages.map (imageAware model))
    {id other : JsString} (hid : id ∈ transcriptIds messages) (hother : other ∈ transcriptIds messages)
    (heq : Provider.outputId model normalize message id = Provider.outputId model normalize message other) :
    id = other := by
  have hsource : .assistant message ∈ messages.map Message.normalized := by
    obtain ⟨given, hgiven, himage⟩ := mem_map.1 hmessage
    apply mem_map.2 ⟨given, hgiven, ?_⟩
    cases given with
    | assistant given =>
      rw [imageAware_assistant] at himage
      exact himage
    | toolResult given =>
      obtain ⟨_, hresult, -⟩ := imageAware_toolResult model given
      rw [hresult] at himage
      cases himage
    | system content extra =>
      obtain ⟨_, hsystem⟩ := imageAware_system model content extra
      rw [hsystem] at himage
      cases himage
    | user content extra =>
      obtain ⟨_, huser⟩ := imageAware_user model content extra
      rw [huser] at himage
      cases himage
  rcases hrewrite : normalize with _ | rewrite
  · rw [hrewrite] at heq
    exact heq
  rw [hrewrite] at heq
  simp only [Provider.outputId] at heq
  split at heq
  · exact heq
  · exact hinj rewrite hrewrite message hsource id hid other hother heq

/-- A well-formed transcript goes out with every call paired just when its answered calls are
told apart by their ids. -/
theorem transformMessages_pairsCalls_iff (now : Nat) {messages : List Message}
    (hformed : wellFormed [] messages) (hinj : InjectiveOn normalize messages) :
    PairsCalls model normalize now messages (transformMessages model normalize now messages) ↔
      ToldApart model normalize messages := by
  have himage : wellFormed [] (messages.map (imageAware model)) := wellFormed_imageAware model hformed
  have hout : wellFormed [] (withOutputIds model normalize none (messages.map (imageAware model))) :=
    @wellFormed_withOutputIds model normalize (transcriptIds messages) _
      (fun id hid => by rwa [transcriptIds_imageAware] at hid)
      (fun message hmessage id hid other hother heq => hinj.outputId hmessage hid hother heq)
      none (fun id _ other _ heq => heq) [] (by simp) himage
  rw [ToldApart, ← firstPass_eq_iff_traceable model normalize himage]
  constructor
  · intro hpairs
    have hplaced := hpairs.placed
    rw [← secondPass_eq_paired now hout] at hplaced
    exact secondPass_injective now (firstPass_sameButResults model normalize [] none _) _ hplaced
  intro hpass
  have hplaced : transformMessages model normalize now messages =
      paired now (withOutputIds model normalize none (messages.map (imageAware model))) := by
    rw [transformMessages, hpass, secondPass_eq_paired now hout]
  refine ⟨hplaced, ?_, ?_⟩
  · rw [hplaced]
    exact pairsUp_paired now hout
  · rw [hplaced, kept_paired now hout, kept_withOutputIds, kept_imageAware, map_map]
    rfl

/-! ### A reused id -/

/-- An id with a bar, as the other provider makes them. -/
def barId : JsString := js "a|b".toList

def barless (id : JsString) (_ : AssistantMessage) : JsString :=
  id.map fun unit => if unit = 124 then 95 else unit

def exampleModel : Model := ⟨js "m".toList, js "messages".toList, js "p".toList, true⟩

/-- A reply with the one call `id`, of the example's model or of another. -/
def exampleCall (own : Bool) (id : JsString) : Message :=
  .assistant ⟨some [.toolCall ⟨id, js "ls".toList, none, 0⟩], js "messages".toList,
    if own then js "p".toList else js "q".toList, js "m".toList, .toolUse, 0⟩

def exampleResult (id : JsString) : Message :=
  .toolResult ⟨id, js "ls".toList, some [.text (js "f".toList) none], false, 0, 0⟩

/-- A call of another model answered, then a call of the model's own with the same id. -/
def reused : List Message :=
  [exampleCall false barId, exampleResult barId, exampleCall true barId, exampleResult barId]

theorem transformMessages_pairsCalls_answered :
    wellFormed [] [exampleCall false barId, exampleResult barId] ∧
      InjectiveOn (some barless) [exampleCall false barId, exampleResult barId] ∧
      PairsCalls exampleModel (some barless) 7 [exampleCall false barId, exampleResult barId]
        (transformMessages exampleModel (some barless) 7 [exampleCall false barId, exampleResult barId]) := by
  have hformed : wellFormed [] [exampleCall false barId, exampleResult barId] :=
    ⟨by decide, by decide, trivial⟩
  have hinj : InjectiveOn (some barless) [exampleCall false barId, exampleResult barId] := by
    intro rewrite _ source _ id hid other hother _
    have hids : transcriptIds [exampleCall false barId, exampleResult barId] = [barId, barId] := rfl
    rw [hids] at hid hother
    simp only [mem_cons, not_mem_nil, or_false, or_self] at hid hother
    rw [hid, hother]
  refine ⟨hformed, hinj, (transformMessages_pairsCalls_iff 7 hformed hinj).2 ?_⟩
  intro before message after heq id hid
  cases before with
  | nil =>
    obtain ⟨hhead, htail⟩ := List.cons.inj heq
    cases hhead
    have hafter : answered after = [barId] := (congrArg answered htail).symm
    rw [hafter, mem_singleton] at hid
    subst hid
    rw [Traceable, if_neg (by decide)]
    decide
  | cons first before =>
    cases before with
    | nil => cases heq
    | cons second before =>
      have hlength := congrArg List.length heq
      simp at hlength

/-- The second result goes out under the first call's id. -/
theorem reused_not_paired :
    wellFormed [] reused ∧ InjectiveOn (some barless) reused ∧
      ¬ pairsUp [] (transformMessages exampleModel (some barless) 7 reused) := by
  refine ⟨⟨by decide, by decide, by decide, by decide, trivial⟩, ?_, ?_⟩
  · intro rewrite _ source _ id hid other hother _
    have hids : transcriptIds reused = [barId, barId, barId, barId] := rfl
    rw [hids] at hid hother
    simp only [mem_cons, not_mem_nil, or_false, or_self] at hid hother
    rw [hid, hother]
  intro hpairs
  have hmem := hpairs.2.2.2.1
  revert hmem
  decide

end Hummin.Provider
