/-
Replaying declared tool changes: a declared difference leads to the target tools, the changes
left in place after a fold only add tools, and a collapsed transcript holds the same prompt and
tools as the one it was made from.
-/
import Hummin.TranscriptTools

namespace Hummin.TranscriptTools

open List JsMap PropertyList

universe u v

variable {ε : Type u} {ω : Type v}

/-! ### Differences -/

theorem systemMessages_append (messages more : List (Message ε ω)) :
    systemMessages (messages ++ more) = systemMessages messages ++ systemMessages more :=
  filterMap_append

theorem currentToolMap_append (messages more : List (SystemMessage ε)) :
    currentToolMap (messages ++ more) = more.foldl applyTools (currentToolMap messages) :=
  foldl_append

theorem keyed_byName (tools : List (Tool ε)) : JsMap.Keyed Tool.name (byName tools) := by
  have hall : byName tools = JsMap.setAll Tool.name tools [] := by
    rw [byName, JsMap.ofPairs, foldl_map]
    rfl
  rw [hall]
  exact (keyed_nil Tool.name).setAll tools

/-- Tools of different names are found by their names. -/
theorem get_byName {tools : List (Tool ε)} (hnames : (tools.map Tool.name).Nodup) (name : JsString)
    (tool : Tool ε) : get name (byName tools) = some tool ↔ tool ∈ tools ∧ tool.name = name := by
  have hmap : byName tools = tools.map fun tool => (tool.name, tool) := by
    apply ofPairs_of_nodup
    rw [PropertyList.keys, map_map]
    exact hnames
  rw [(keyed_byName tools).get_iff, hmap, map_map]
  have hvalues : tools.map (Prod.snd ∘ fun tool => (tool.name, tool)) = tools := map_id tools
  rw [hvalues]

section Changes

variable [DecidableEq ε] {previous target : List (Tool ε)}

theorem mem_toolsRemoved (htarget : (target.map Tool.name).Nodup) {tool : Tool ε}
    (htool : tool ∈ previous)
    (hkept : tool.name ∉ (getToolStateChanges previous target).toolsRemoved) :
    ∃ current ∈ target, current.name = tool.name ∧ toToolDeclaration current = toToolDeclaration tool := by
  rcases hget : get tool.name (byName target) with _ | current
  · exfalso
    apply hkept
    refine mem_map.2 ⟨tool, mem_filter.2 ⟨htool, ?_⟩, rfl⟩
    rw [hget]
  obtain ⟨hmember, hname⟩ := (get_byName htarget tool.name current).1 hget
  refine ⟨current, hmember, hname, ?_⟩
  by_contra hdiffer
  apply hkept
  refine mem_map.2 ⟨tool, mem_filter.2 ⟨htool, ?_⟩, rfl⟩
  rw [hget]
  simp only [declarationsEqual, Bool.not_eq_true', decide_eq_false_iff_not]
  exact fun hsame => hdiffer hsame.symm

theorem mem_toolsAdded {tool : Tool ε}
    (htool : tool ∈ (getToolStateChanges previous target).toolsAdded) :
    ∃ current ∈ target, tool = toToolDeclaration current := by
  obtain ⟨current, hcurrent, rfl⟩ := mem_map.1 htool
  exact ⟨current, (mem_filter.1 hcurrent).1, rfl⟩

theorem names_toolsAdded (htarget : (target.map Tool.name).Nodup) :
    ((getToolStateChanges previous target).toolsAdded.map Tool.name).Nodup := by
  rw [getToolStateChanges, map_map]
  exact htarget.sublist (filter_sublist.map Tool.name)

/-- A target tool is added, or is there with the same declaration. -/
theorem toolsAdded_or_same (hprevious : (previous.map Tool.name).Nodup) {tool : Tool ε}
    (htool : tool ∈ target) :
    toToolDeclaration tool ∈ (getToolStateChanges previous target).toolsAdded ∨
      ∃ kept ∈ previous, kept.name = tool.name ∧ toToolDeclaration kept = toToolDeclaration tool := by
  rcases hget : get tool.name (byName previous) with _ | kept
  · refine .inl (mem_map.2 ⟨tool, mem_filter.2 ⟨htool, ?_⟩, rfl⟩)
    rw [hget]
  obtain ⟨hmember, hname⟩ := (get_byName hprevious tool.name kept).1 hget
  by_cases hsame : toToolDeclaration kept = toToolDeclaration tool
  · exact .inr ⟨kept, hmember, hname, hsame⟩
  refine .inl (mem_map.2 ⟨tool, mem_filter.2 ⟨htool, ?_⟩, rfl⟩)
  rw [hget]
  simp [declarationsEqual, hsame]

end Changes

theorem eq_of_name {tools : List (Tool ε)} (hnames : (tools.map Tool.name).Nodup)
    {tool other : Tool ε}
    (htool : tool ∈ tools) (hother : other ∈ tools) (hname : tool.name = other.name) : tool = other := by
  have hfirst := (get_byName hnames other.name tool).2 ⟨htool, hname⟩
  have hsecond := (get_byName hnames other.name other).2 ⟨hother, rfl⟩
  exact Option.some.inj (hfirst.symm.trans hsecond)

variable {tools : List (JsString × Tool ε)}

/-- After the declared changes, the tools are the target's. -/
theorem mem_applyTools_changes [DecidableEq ε]
    (htools : JsMap.Keyed Tool.name tools) {target : List (Tool ε)} (htarget : (target.map Tool.name).Nodup)
    {message : SystemMessage ε}
    (hadded : message.added = (getToolStateChanges (tools.map Prod.snd) target).toolsAdded)
    (hremoved : message.removed = (getToolStateChanges (tools.map Prod.snd) target).toolsRemoved)
    (declaration : Tool ε) :
    declaration ∈ ((applyTools tools message).map Prod.snd).map toToolDeclaration ↔
      declaration ∈ target.map toToolDeclaration := by
  have hprevious : ((tools.map Prod.snd).map Tool.name).Nodup := by
    rw [htools.keys_eq]
    exact htools.distinct
  have hkeyed := keyed_applyTools htools message
  have hnames := @names_toolsAdded ε _ (tools.map Prod.snd) target htarget
  rw [← hadded] at hnames
  constructor
  · intro hdeclaration
    obtain ⟨tool, htool, rfl⟩ := mem_map.1 hdeclaration
    have hget := (hkeyed.get_iff tool.name tool).2 ⟨htool, rfl⟩
    rw [applyTools] at hget
    by_cases hname : tool.name ∈ message.added.map Tool.name
    · obtain ⟨other, hother, hsame⟩ := mem_map.1 hname
      rw [← hsame, get_setAll_of_mem hnames hother] at hget
      cases hget
      rw [hadded] at hother
      obtain ⟨current, hcurrent, rfl⟩ := mem_toolsAdded hother
      exact mem_map.2 ⟨current, hcurrent, rfl⟩
    rw [get_setAll_of_not_mem hname, get_eraseAll] at hget
    split at hget
    · cases hget
    rename_i hkept
    rw [hremoved] at hkept
    have hold := ((htools.get_iff tool.name tool).1 hget).1
    obtain ⟨current, hcurrent, -, hsame⟩ := mem_toolsRemoved htarget hold hkept
    exact mem_map.2 ⟨current, hcurrent, hsame⟩
  intro hdeclaration
  obtain ⟨tool, htool, rfl⟩ := mem_map.1 hdeclaration
  by_cases hname : tool.name ∈ message.added.map Tool.name
  · -- The addition of this name is the tool's own declaration.
    obtain ⟨other, hother, hsame⟩ := mem_map.1 hname
    have hget : get other.name (applyTools tools message) = some other :=
      get_setAll_of_mem hnames hother
    rw [hadded] at hother
    obtain ⟨current, hcurrent, rfl⟩ := mem_toolsAdded hother
    obtain rfl := eq_of_name htarget hcurrent htool hsame
    exact mem_map.2 ⟨_, ((hkeyed.get_iff _ _).1 hget).1, rfl⟩
  rcases @toolsAdded_or_same ε _ _ target hprevious tool htool with hnew | ⟨kept, hkept, hsame, hdeclared⟩
  · exfalso
    apply hname
    rw [hadded]
    exact mem_map.2 ⟨toToolDeclaration tool, hnew, rfl⟩
  refine mem_map.2 ⟨kept, ?_, hdeclared⟩
  have hget : get kept.name (applyTools tools message) = some kept := by
    rw [applyTools, get_setAll_of_not_mem (by rw [hsame]; exact hname), get_eraseAll, if_neg]
    · exact (htools.get_iff _ _).2 ⟨hkept, rfl⟩
    rw [hremoved]
    intro hgone
    obtain ⟨other, hother, hothers⟩ := mem_map.1 hgone
    obtain ⟨hmember, hchanged⟩ := mem_filter.1 hother
    obtain rfl := eq_of_name hprevious hmember hkept hothers
    have hfound := (get_byName htarget other.name tool).2 ⟨htool, hsame.symm⟩
    rw [hfound] at hchanged
    simp [declarationsEqual, hdeclared] at hchanged
  exact ((hkeyed.get_iff _ _).1 hget).1

/-! ### Folds -/

/-- The names that messages declare. -/
def declaredNames (messages : List (SystemMessage ε)) : List JsString :=
  messages.flatMap fun message => message.added.map Tool.name

/-- Messages that remove nothing and declare new names only. -/
def OnlyAdds (declared : List JsString) : List (SystemMessage ε) → Prop
  | [] => True
  | message :: rest => message.removed = [] ∧ (message.added.map Tool.name).Nodup ∧
      (∀ name ∈ message.added.map Tool.name, name ∉ declared) ∧
      OnlyAdds (declared ++ message.added.map Tool.name) rest

theorem onlyAdds_append (declared : List JsString) (messages more : List (SystemMessage ε)) :
    OnlyAdds declared (messages ++ more) ↔
      OnlyAdds declared messages ∧ OnlyAdds (declared ++ declaredNames messages) more := by
  induction messages generalizing declared with
  | nil => simp [OnlyAdds, declaredNames]
  | cons message rest ih =>
    rw [cons_append, OnlyAdds, OnlyAdds, ih, declaredNames, declaredNames, flatMap_cons, append_assoc]
    simp only [and_assoc]

variable {declared : List JsString}

theorem OnlyAdds.removed {messages : List (SystemMessage ε)}
    (hadds : OnlyAdds declared messages) : ∀ message ∈ messages, message.removed = [] := by
  induction messages generalizing declared with
  | nil => exact forall_mem_nil _
  | cons first rest ih =>
    intro message hmessage
    rcases mem_cons.1 hmessage with rfl | hrest
    · exact hadds.1
    · exact ih hadds.2.2.2 message hrest

theorem OnlyAdds.names {messages : List (SystemMessage ε)} (hadds : OnlyAdds declared messages) :
    (declaredNames messages).Nodup ∧ ∀ name ∈ declaredNames messages, name ∉ declared := by
  induction messages generalizing declared with
  | nil => exact ⟨nodup_nil, forall_mem_nil _⟩
  | cons message rest ih =>
    obtain ⟨-, hdistinct, hnew, hrest⟩ := hadds
    obtain ⟨hdistinctRest, hnewRest⟩ := ih hrest
    rw [declaredNames, flatMap_cons]
    refine ⟨nodup_append.2 ⟨hdistinct, hdistinctRest, ?_⟩, ?_⟩
    · rintro name hname other hother rfl
      exact hnewRest name hother (mem_append_right _ hname)
    intro name hname
    rcases mem_append.1 hname with hfirst | hlater
    · exact hnew name hfirst
    · exact fun hdeclared => hnewRest name hlater (mem_append_left _ hdeclared)

theorem foldl_declare (index : Nat) (tools : List (Tool ε)) (found : NonAdditive) :
    (tools.foldl (NonAdditive.declare index) found).declared = found.declared ++ tools.map Tool.name ∧
      ((tools.foldl (NonAdditive.declare index) found).last = some index ∨
        (tools.foldl (NonAdditive.declare index) found).last = found.last ∧ (tools.map Tool.name).Nodup ∧
          ∀ name ∈ tools.map Tool.name, name ∉ found.declared) := by
  induction tools generalizing found with
  | nil => exact ⟨(append_nil _).symm, .inr ⟨rfl, nodup_nil, forall_mem_nil _⟩⟩
  | cons tool rest ih =>
    obtain ⟨hdeclared, hlast⟩ := ih (found.declare index tool)
    rw [foldl_cons]
    refine ⟨?_, ?_⟩
    · rw [hdeclared, NonAdditive.declare, append_assoc]
      rfl
    rcases hlast with hfound | ⟨hkept, hdistinct, hnew⟩
    · exact .inl hfound
    by_cases hold : tool.name ∈ found.declared
    · refine .inl (hkept.trans ?_)
      rw [NonAdditive.declare, if_pos hold]
    refine .inr ⟨?_, ?_, ?_⟩
    · rw [hkept, NonAdditive.declare, if_neg hold]
    · rw [map_cons, nodup_cons]
      refine ⟨fun hrest => hnew tool.name hrest ?_, hdistinct⟩
      exact mem_append_right _ mem_cons_self
    intro name hname
    rcases mem_cons.1 hname with rfl | hrest
    · exact hold
    · exact fun hdeclared => hnew name hrest (mem_append_left _ hdeclared)

variable (messages : List (SystemMessage ε))

/-- The messages after the last change that is no addition only add tools. -/
theorem onlyAdds_findLast :
    (messages.zipIdx.foldl NonAdditive.message ⟨[], none⟩).declared = declaredNames messages ∧
      ∃ folded ≤ messages.length,
        (match findLastNonAdditiveToolChange messages with | none => 0 | some index => index + 1) = folded ∧
        OnlyAdds (declaredNames (messages.take folded)) (messages.drop folded) := by
  induction messages using reverseRecOn with
  | nil => exact ⟨rfl, 0, Nat.le_refl 0, rfl, trivial⟩
  | append_singleton messages message ih =>
    obtain ⟨hdeclared, folded, hle, hfolded, hadds⟩ := ih
    have hstep : (messages ++ [message]).zipIdx.foldl NonAdditive.message ⟨[], none⟩ =
        (messages.zipIdx.foldl NonAdditive.message ⟨[], none⟩).message (message, messages.length) := by
      rw [zipIdx_append, foldl_append, Nat.zero_add]
      rfl
    have hnames : declaredNames (messages ++ [message]) =
        declaredNames messages ++ message.added.map Tool.name := by
      rw [declaredNames, declaredNames, flatMap_append, flatMap_singleton]
    rw [findLastNonAdditiveToolChange] at hfolded ⊢
    rw [hstep, NonAdditive.message, hnames]
    generalize messages.zipIdx.foldl NonAdditive.message ⟨[], none⟩ = found at *
    obtain ⟨hnext, hlast⟩ := foldl_declare messages.length message.added
      { found with last := if message.removed.isEmpty then found.last else some messages.length }
    refine ⟨?_, ?_⟩
    · rw [hnext]
      exact congrArg (· ++ _) hdeclared
    have hall : ∃ folded ≤ (messages ++ [message]).length, messages.length + 1 = folded ∧
        OnlyAdds (declaredNames ((messages ++ [message]).take folded)) ((messages ++ [message]).drop folded) := by
      refine ⟨messages.length + 1, by simp, rfl, ?_⟩
      rw [drop_of_length_le (by simp)]
      trivial
    rcases hlast with hfound | ⟨hkept, hdistinct, hnew⟩
    · simp only [hfound]
      exact hall
    simp only [hkept]
    by_cases hremoved : message.removed.isEmpty = true
    · rw [if_pos hremoved]
      refine ⟨folded, by simp; omega, hfolded, ?_⟩
      rw [take_append_of_le_length hle, drop_append_of_le_length hle, onlyAdds_append]
      refine ⟨hadds, isEmpty_iff.1 hremoved, hdistinct, ?_, trivial⟩
      intro name hname hold
      apply hnew name hname
      show name ∈ found.declared
      rw [hdeclared, ← take_append_drop folded messages, declaredNames, flatMap_append]
      exact hold
    · rw [if_neg hremoved]
      exact hall

/-- A larger fold leaves messages that only add, too. -/
theorem OnlyAdds.drop {declared : List JsString} {messages : List (SystemMessage ε)}
    (hadds : OnlyAdds declared messages) (count : Nat) :
    OnlyAdds (declared ++ declaredNames (messages.take count)) (messages.drop count) := by
  rw [← take_append_drop count messages, onlyAdds_append] at hadds
  exact hadds.2

theorem onlyAdds_resolve (messages : List (Message ε ω)) :
    let folded := (resolveTranscriptTools messages .additions).foldedSystemMessages
    OnlyAdds (declaredNames ((systemMessages messages).take folded)) ((systemMessages messages).drop folded) := by
  intro folded
  obtain ⟨-, changed, -, hchanged, hadds⟩ := onlyAdds_findLast (systemMessages messages)
  have hle : changed ≤ folded := by
    show changed ≤ max _ (match findLastNonAdditiveToolChange (systemMessages messages) with
      | none => 0 | some index => index + 1)
    rw [hchanged]
    exact Nat.le_max_right _ _
  obtain ⟨more, hmore⟩ := Nat.le.dest hle
  have hdropped := hadds.drop more
  rw [drop_drop, declaredNames, declaredNames, ← flatMap_append] at hdropped
  rw [declaredNames, ← hmore, take_add]
  exact hdropped

/-! ### Tools in place -/

theorem keys_applyTools {declared : List JsString}
    (hkeys : ∀ name ∈ keys tools, name ∈ declared) (message : SystemMessage ε) :
    ∀ name ∈ keys (applyTools tools message), name ∈ declared ++ message.added.map Tool.name := by
  intro name hname
  by_cases hadded : name ∈ message.added.map Tool.name
  · exact mem_append_right _ hadded
  apply mem_append_left
  apply hkeys
  rw [← get_isSome_iff] at hname ⊢
  rw [applyTools, get_setAll_of_not_mem hadded, get_eraseAll] at hname
  split at hname
  · cases hname
  · exact hname

theorem keys_currentToolMap :
    ∀ name ∈ keys (currentToolMap messages), name ∈ declaredNames messages := by
  induction messages using reverseRecOn with
  | nil => exact forall_mem_nil _
  | append_singleton messages message ih =>
    rw [currentToolMap_append, declaredNames, flatMap_append, flatMap_singleton]
    exact keys_applyTools ih message

/-- Messages that only add tools put them at the end, in order. -/
theorem foldl_applyTools_of_onlyAdds {declared : List JsString}
    (hkeys : ∀ name ∈ keys tools, name ∈ declared) {messages : List (SystemMessage ε)}
    (hadds : OnlyAdds declared messages) :
    (messages.foldl applyTools tools).map Prod.snd =
      tools.map Prod.snd ++ messages.flatMap SystemMessage.added := by
  induction messages generalizing tools declared with
  | nil => exact (append_nil _).symm
  | cons message rest ih =>
    obtain ⟨hremoved, hdistinct, hnew, hrest⟩ := hadds
    have happlied : applyTools tools message = tools ++ message.added.map fun tool => (tool.name, tool) := by
      rw [applyTools, hremoved]
      apply setAll_of_new hdistinct
      exact fun name hname hkey => hnew name hname (hkeys name hkey)
    rw [foldl_cons, ih (keys_applyTools hkeys message) hrest, happlied, map_append, map_map,
      flatMap_cons, append_assoc]
    have hvalues : message.added.map (Prod.snd ∘ fun tool => (tool.name, tool)) = message.added := map_id _
    rw [hvalues]

/-! ### Collapsed transcripts -/

/-- Without their tools the messages replay to the prompt of their replay. -/
theorem prompt_replayedSystem :
    (replayedSystem messages).prompt =
      { Session.replayedSystem (messages.map SystemMessage.prompt) with
        timestamp := (replayedSystem messages).timestamp } := by
  have hnone : Session.currentToolMap (messages.map SystemMessage.prompt) = [] := by
    rw [Session.currentToolMap, foldl_map]
    induction messages with
    | nil => rfl
    | cons message rest ih => exact ih
  rw [Session.replayedSystem, hnone]
  rfl

theorem currentToolMap_replayedSystem :
    currentToolMap [replayedSystem messages] = currentToolMap messages := by
  have hadded : (replayedSystem messages).added = (currentToolMap messages).map Prod.snd := by
    rw [SystemMessage.added, replayedSystem]
    simp only
    split
    next hempty =>
      rw [isEmpty_iff.1 hempty]
      rfl
    · rfl
  rw [currentToolMap, foldl_cons, foldl_nil, applyTools, hadded]
  exact (keyed_currentToolMap messages).replay

/-- A replay replays to itself. -/
theorem replayedSystem_singleton :
    replayedSystem [replayedSystem messages] = replayedSystem messages := by
  have htext := Session.currentText_replayed (messages.map SystemMessage.prompt) (replayedSystem messages).timestamp
  have hsections :=
    Session.currentSections_replayed (messages.map SystemMessage.prompt) (replayedSystem messages).timestamp
  rw [← prompt_replayedSystem] at htext hsections
  have htools := currentToolMap_replayedSystem messages
  rw [replayedSystem, map_singleton, htext, htools]
  have hpatched : (if (Session.currentSections [(replayedSystem messages).prompt]).isEmpty then none
      else some (Session.sectionsObject (Session.currentSections [(replayedSystem messages).prompt]))) =
      (replayedSystem messages).sections := hsections
  rw [hpatched]
  rfl

theorem systemMessages_collapse (messages : List (Message ε ω)) :
    systemMessages (collapseSystemMessages messages) = (getCurrentSystemMessage messages).toList := by
  have hothers : systemMessages (messages.filter fun message => message.system?.isNone) = [] := by
    rw [systemMessages, filterMap_eq_nil_iff]
    intro message hmessage
    exact Option.isNone_iff_eq_none.1 (mem_filter.1 hmessage).2
  rw [collapseSystemMessages]
  split
  next head hhead =>
    rw [hhead]
    exact congrArg (head :: ·) hothers
  next hnone =>
    rw [hnone]
    exact hothers

theorem getCurrentSystemMessage_collapse (messages : List (Message ε ω)) :
    getCurrentSystemMessage (collapseSystemMessages messages) = getCurrentSystemMessage messages := by
  rw [getCurrentSystemMessage, systemMessages_collapse]
  rcases hhead : getCurrentSystemMessage messages with _ | head
  · exact if_pos ⟨rfl, rfl⟩
  rw [getCurrentSystemMessage] at hhead
  split at hhead
  · cases hhead
  cases hhead
  refine (if_neg ?_).trans (congrArg some (replayedSystem_singleton _))
  rintro ⟨hempty, -⟩
  cases hempty

theorem collapseSystemMessages_idem (messages : List (Message ε ω)) :
    collapseSystemMessages (collapseSystemMessages messages) = collapseSystemMessages messages := by
  have hothers : (collapseSystemMessages messages).filter (fun message => message.system?.isNone) =
      messages.filter fun message => message.system?.isNone := by
    rw [collapseSystemMessages]
    split
    · rw [filter_cons_of_neg (by simp [Message.system?]), filter_filter]
      simp
    rw [filter_filter]
    simp
  rw [collapseSystemMessages, getCurrentSystemMessage_collapse, hothers]
  rfl

/-! ### The transcript -/

/-- Declared changes lead to the target's declarations; the tools of a request and those left in
place are the current ones; and a collapsed transcript has the same current message. -/
theorem tool_deltas_replay [DecidableEq ε] (messages : List (Message ε ω)) :
    (∀ (target : List (Tool ε)) (message : SystemMessage ε), (target.map Tool.name).Nodup →
      message.added = (getToolStateChanges (getCurrentTools messages) target).toolsAdded →
      message.removed = (getToolStateChanges (getCurrentTools messages) target).toolsRemoved →
      ((getCurrentTools (messages ++ [Message.system message])).map toToolDeclaration).Perm
        (target.map toToolDeclaration)) ∧
    (let resolved := resolveTranscriptTools messages .additions
      let folded := (systemMessages messages).take resolved.foldedSystemMessages
      let inPlace := (systemMessages messages).drop resolved.foldedSystemMessages
      (∀ message ∈ inPlace, message.removed = []) ∧ (declaredNames inPlace).Nodup ∧
        (∀ name ∈ declaredNames inPlace, name ∉ declaredNames folded) ∧
        resolved.requestTools ++ inPlace.flatMap SystemMessage.added = getCurrentTools messages) ∧
    getCurrentSystemMessage (collapseSystemMessages messages) = getCurrentSystemMessage messages ∧
    collapseSystemMessages (collapseSystemMessages messages) = collapseSystemMessages messages := by
  refine ⟨?_, ?_, getCurrentSystemMessage_collapse messages, collapseSystemMessages_idem messages⟩
  · intro target message htarget hadded hremoved
    have hkeyed := keyed_currentToolMap (systemMessages messages)
    have hcurrent : getCurrentTools (messages ++ [Message.system message]) =
        (applyTools (currentToolMap (systemMessages messages)) message).map Prod.snd := by
      rw [getCurrentTools, systemMessages_append, currentToolMap_append]
      rfl
    have hdistinct {tools : List (Tool ε)} (hnames : (tools.map Tool.name).Nodup) :
        (tools.map toToolDeclaration).Nodup := by
      apply List.Nodup.of_map Tool.name
      rw [map_map]
      exact hnames
    rw [hcurrent]
    apply (perm_ext_iff_of_nodup (hdistinct ?_) (hdistinct htarget)).2
    · exact mem_applyTools_changes hkeyed htarget hadded hremoved
    · rw [(keyed_applyTools hkeyed message).keys_eq]
      exact (keyed_applyTools hkeyed message).distinct
  · have hadds := onlyAdds_resolve messages
    refine ⟨hadds.removed, hadds.names.1, hadds.names.2, ?_⟩
    have hall := foldl_applyTools_of_onlyAdds (keys_currentToolMap _) hadds
    rw [← currentToolMap_append, take_append_drop] at hall
    exact hall.symm

/-- One tool is kept, one redefined, one removed and one added. -/
theorem tool_deltas_replay_redefined :
    let tool := fun (name : List Char) (parameters : Rat) => (⟨js name, [], .num parameters, none, none⟩ : Tool Unit)
    let messages : List (Message Unit Unit) :=
      [.system ⟨.text [], none, some [tool ['a'] 1, tool ['b'] 1, tool ['c'] 1], none, 1⟩, .other ()]
    let target := [tool ['d'] 1, tool ['b'] 2, { tool ['a'] 1 with rest := some () }]
    ((getCurrentTools (messages ++ [Message.system ⟨.text [], none, some [tool ['d'] 1, tool ['b'] 2],
      some [js ['b'], js ['c']], 2⟩])).map toToolDeclaration).Perm (target.map toToolDeclaration) := by
  intro tool messages target
  apply (tool_deltas_replay messages).1
  · decide
  · decide
  · decide

end Hummin.TranscriptTools
