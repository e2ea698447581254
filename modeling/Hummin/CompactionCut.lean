/-
The cut of a compaction.  It lies between the entries that are summarized and
those that are kept, so no message is lost or shown twice, and what is kept starts
with a message that may be cut at, so no tool result loses its call.
-/
import Hummin.CompactionContext

namespace Hummin.Session

open List Option

/-! ### Where the cut lies -/

variable {entries : List ProjectedEntry} {startIndex endIndex : Nat}

theorem mem_projectedCutPoints {index : Nat} :
    index ∈ projectedCutPoints entries startIndex endIndex ↔
      (startIndex ≤ index ∧ index < endIndex) ∧
        entries[index]?.any isCutPoint = true := by
  rw [projectedCutPoints, mem_filter, mem_range'_1]
  constructor
  · rintro ⟨hrange, hcut⟩
    exact ⟨by omega, hcut⟩
  rintro ⟨hrange, hcut⟩
  exact ⟨by omega, hcut⟩

theorem budgetCut_mem (keepRecentTokens : ℚ) (firstCut : Nat) (cutPoints : List Nat) :
    (budgetCut entries startIndex endIndex keepRecentTokens firstCut cutPoints).1 ∈
      firstCut :: cutPoints := by
  rw [budgetCut]
  split
  next index hindex =>
    cases hfind : (firstCut :: cutPoints).find? fun candidate => index ≤ candidate with
    | none => exact getLast_mem _
    | some candidate => exact mem_of_find?_eq_some hfind
  · exact mem_cons_self

/-- An entry that shows nothing. -/
def showsNothing (projected : ProjectedEntry) : Bool :=
  projected.messages.isEmpty

variable {cutIndex : Nat}

theorem stepBack_spec (hstart : startIndex ≤ cutIndex) :
    startIndex ≤ stepBack entries startIndex cutIndex ∧
      stepBack entries startIndex cutIndex ≤ cutIndex ∧
      ∀ index, stepBack entries startIndex cutIndex ≤ index → index < cutIndex →
        entries[index]?.any showsNothing = true := by
  induction cutIndex with
  | zero =>
    rw [stepBack]
    exact ⟨hstart, Nat.le_refl 0, fun index _ hindex => absurd hindex (by omega)⟩
  | succ cutIndex ih =>
    rw [stepBack]
    split
    next hback =>
      obtain ⟨hlow, hhigh, hhidden⟩ := ih (by omega)
      refine ⟨hlow, by omega, ?_⟩
      intro index hindex hlt
      rcases Nat.lt_succ_iff_lt_or_eq.mp hlt with hlt | rfl
      · exact hhidden index hindex hlt
      obtain ⟨previous, hprevious, hhides⟩ := (any_eq_true _ _).mp hback.2
      rw [hprevious, any_some]
      exact (Bool.and_eq_true_iff.mp hhides).2
    · exact ⟨hstart, le_rfl, fun index hindex hlt => absurd hlt (by omega)⟩

theorem findProjectedTurnStartIndex_spec {index turnStart : Nat}
    (hfound : findProjectedTurnStartIndex entries startIndex index = some turnStart) :
    startIndex ≤ turnStart ∧ turnStart ≤ index := by
  induction index with
  | zero =>
    rw [findProjectedTurnStartIndex] at hfound
    split at hfound
    · cases hfound
      rename_i hturn
      exact ⟨by omega, Nat.le_refl 0⟩
    · cases hfound
  | succ index ih =>
    rw [findProjectedTurnStartIndex] at hfound
    split at hfound
    · cases hfound
    split at hfound
    · cases hfound
      exact ⟨by omega, le_rfl⟩
    obtain ⟨hlow, hhigh⟩ := ih hfound
    exact ⟨hlow, by omega⟩

/-- The messages of entries, in order. -/
def shownMessages (entries : List ProjectedEntry) : List AgentMessage :=
  entries.flatMap ProjectedEntry.messages

variable {first last : Nat}

theorem shownMessages_drop (hle : first ≤ last) (hhidden : ∀ index, first ≤ index → index < last →
      entries[index]?.any showsNothing = true) :
    shownMessages (entries.drop first) = shownMessages (entries.drop last) := by
  induction last, hle using Nat.le_induction with
  | base => rfl
  | succ last hle ih =>
    obtain ⟨projected, hprojected, hnothing⟩ :=
      (any_eq_true _ _).mp (hhidden last hle (by omega))
    obtain ⟨hlt, rfl⟩ := List.getElem?_eq_some_iff.mp hprojected
    rw [ih fun index hindex hlt => hhidden index hindex (by omega),
      drop_eq_getElem_cons hlt, shownMessages, flatMap_cons,
      isEmpty_iff.mp hnothing]
    rfl

/-- What the entries of a projection satisfy: without a message of its own an entry
shows none, and only a compaction shows more than one. -/
structure Projected (projected : ProjectedEntry) : Prop where
  silent : sessionEntryToContextMessages projected.sourceEntry = [] →
    projected.messages = []
  single : projected.sourceEntry.isCompaction = false → projected.messages.length ≤ 1

theorem shownMessages_suffix {suffix : List ProjectedEntry}
    (hprojected : ∀ projected ∈ suffix, Projected projected)
    (hsuffix : isRecoveryOmissionSuffix suffix = true) : shownMessages suffix = [] := by
  rw [isRecoveryOmissionSuffix, Bool.and_eq_true, List.all_eq_true] at hsuffix
  rw [shownMessages, flatMap_eq_nil_iff]
  intro projected hmem
  have hcase := hsuffix.2 projected hmem
  rw [Bool.and_eq_true, Bool.or_eq_true] at hcase
  rcases hcase.2 with hinvisible | homitted
  · apply (hprojected projected hmem).silent
    rw [isIntrinsicallyVisible, Bool.not_and, Bool.or_eq_true, Bool.not_not] at hinvisible
    rcases hinvisible with hedit | hempty
    · cases hbody : projected.sourceEntry.body with
      | contextEdit _ _ => simp [sessionEntryToContextMessages, hbody]
      | _ => simp [SessionEntry.edit?, hbody] at hedit
    · exact isEmpty_iff.mp hempty
  · exact isEmpty_iff.mp (Bool.and_eq_true_iff.mp homitted).2

/-- Nothing is shown, or first a message that may be cut at. -/
def StartsAtCutPoint (messages : List AgentMessage) : Prop :=
  ∀ message ∈ messages.head?, isCutPointMessage message = true

theorem shownMessages_cutPoint (hprojected : ∀ projected ∈ entries, Projected projected)
    (hcut : entries[cutIndex]?.any isCutPoint = true) :
    StartsAtCutPoint (shownMessages (entries.drop cutIndex)) := by
  obtain ⟨projected, hentry, hpoint⟩ := (any_eq_true _ _).mp hcut
  obtain ⟨hlt, rfl⟩ := List.getElem?_eq_some_iff.mp hentry
  rw [isCutPoint, Bool.and_eq_true, List.any_eq_true] at hpoint
  obtain ⟨hcompaction, message, hmessage, hcutMessage⟩ := hpoint
  have hsingle := (hprojected _ (getElem_mem hlt)).single (by simpa using hcompaction)
  have hmessages : entries[cutIndex].messages = [message] := by
    obtain ⟨only, honly⟩ : ∃ only, entries[cutIndex].messages = [only] := by
      apply length_eq_one_iff.mp
      have hpos := length_pos_of_mem hmessage
      omega
    rw [honly] at hmessage ⊢
    rw [mem_singleton.mp hmessage]
  rw [drop_eq_getElem_cons hlt, shownMessages, flatMap_cons, hmessages]
  rintro first ⟨⟩
  exact hcutMessage

/-- What is known of a cut in a projection. -/
structure CutSpec (entries : List ProjectedEntry) (startIndex : Nat)
    (cut : CutPointResult) : Prop where
  start : startIndex ≤ cut.firstKeptEntryIndex
  turn : cut.isSplitTurn = true → ∃ turnStart, cut.turnStartIndex = some turnStart ∧
    startIndex ≤ turnStart ∧ turnStart ≤ cut.firstKeptEntryIndex
  shown : startIndex < cut.firstKeptEntryIndex →
    StartsAtCutPoint (shownMessages (entries.drop cut.firstKeptEntryIndex))

theorem cutAt_spec (hstart : startIndex ≤ cutIndex)
    (hshown : StartsAtCutPoint (shownMessages (entries.drop cutIndex))) :
    CutSpec entries startIndex (cutAt entries startIndex cutIndex) where
  start := hstart
  turn := by
    intro hsplit
    obtain ⟨hnot, hsome⟩ := Bool.and_eq_true_iff.mp hsplit
    obtain ⟨turnStart, hturn⟩ := isSome_iff_exists.mp hsome
    refine ⟨turnStart, hturn, ?_⟩
    rw [if_neg (by simpa using hnot)] at hturn
    exact findProjectedTurnStartIndex_spec hturn
  shown _ := hshown

theorem findProjectedCutPoint_spec (hprojected : ∀ projected ∈ entries, Projected projected)
    (keepRecentTokens : ℚ) :
    CutSpec entries startIndex
      (findProjectedCutPoint entries startIndex entries.length keepRecentTokens) := by
  rw [findProjectedCutPoint]
  split
  · constructor
    · exact Nat.le_refl startIndex
    · exact nofun
    intro hlt
    exact absurd hlt (lt_irrefl startIndex)
  rename_i firstCut cutPoints hpoints
  have hmem := @budgetCut_mem entries startIndex entries.length keepRecentTokens
    firstCut cutPoints
  generalize budgetCut entries startIndex entries.length keepRecentTokens firstCut
    cutPoints = cut at hmem ⊢
  obtain ⟨cutIndex, exceeded⟩ := cut
  rw [← hpoints] at hmem
  obtain ⟨⟨hstart, -⟩, hcut⟩ := mem_projectedCutPoints.mp hmem
  have hadvanced : ∀ advanced, startIndex ≤ advanced →
      StartsAtCutPoint (shownMessages (entries.drop advanced)) →
      CutSpec entries startIndex
        (cutAt entries startIndex (stepBack entries startIndex advanced)) := by
    intro advanced hle hmessages
    obtain ⟨hlow, hhigh, hhidden⟩ := @stepBack_spec entries startIndex _ hle
    apply cutAt_spec hlow
    rwa [shownMessages_drop hhigh hhidden]
  dsimp only at hstart hcut ⊢
  split
  next hrecovery =>
    apply hadvanced (cutIndex + 1) (by omega)
    have hsuffix := hrecovery.2
    rw [take_length] at hsuffix
    rw [shownMessages_suffix (fun projected hmem =>
      hprojected projected (mem_of_mem_drop hmem)) hsuffix]
    rintro message ⟨⟩
  · exact hadvanced cutIndex hstart (shownMessages_cutPoint hprojected hcut)

/-! ### The entries of a projection -/

theorem projected_projectContextEntry (entry : SessionEntry)
    (edit : Option (Option Content)) :
    Projected ⟨entry, projectContextEntry entry edit⟩ where
  silent hsilent := by
    have hnone : sessionEntryToContextMessages entry = [] := hsilent
    rcases edit with _ | _ | content <;> simp [projectContextEntry, hnone]
  single hentry := length_projectContextEntry hentry edit

variable (edits : List (EntryId × Option Content))

theorem projected_projectLater (entry : SessionEntry) : Projected (projectLater edits entry) := by
  rw [projectLater]
  split
  · exact ⟨fun _ => rfl, fun _ => Nat.zero_le 1⟩
  · exact projected_projectContextEntry entry _

theorem projected_projectEntries (entries : List SessionEntry) :
    ∀ projected ∈ projectEntries entries, Projected projected := by
  intro projected hprojected
  cases entries with
  | nil => simp [projectEntries] at hprojected
  | cons first rest =>
    rcases mem_cons.mp hprojected with rfl | hrest
    · exact projected_projectContextEntry first _
    obtain ⟨entry, -, rfl⟩ := mem_map.mp hrest
    exact projected_projectLater _ entry

theorem drop_projectEntries (entries : List SessionEntry) (count : Nat) :
    (projectEntries entries).drop (count + 1) =
      (entries.drop (count + 1)).map (projectLater (contextEdits entries)) := by
  cases entries with
  | nil => rfl
  | cons first rest =>
    rw [projectEntries, drop_succ_cons, drop_succ_cons, map_drop]

/-- The context before the messages that can be summarized: the leading compaction,
if it shows something. -/
def boundaryStart (entries : List ProjectedEntry) : Nat :=
  ((entries.findIdx? fun projected =>
    projected.sourceEntry.isCompaction && !projected.messages.isEmpty).map (· + 1)).getD 0

theorem take_boundaryStart (selected : List SessionEntry) :
    ((projectEntries selected).take (boundaryStart (projectEntries selected))).flatMap
      getMessagesFromProjectedEntryForCompaction = [] := by
  cases selected with
  | nil => rfl
  | cons first rest =>
    rw [boundaryStart, projectEntries]
    cases hfirst : (projectFirst (contextEdits (first :: rest)) first).sourceEntry.isCompaction &&
        !(projectFirst (contextEdits (first :: rest)) first).messages.isEmpty with
    | true =>
      rw [findIdx?_cons, hfirst]
      have hcompaction : (projectFirst (contextEdits (first :: rest))
          first).sourceEntry.isCompaction = true :=
        (Bool.and_eq_true_iff.mp hfirst).1
      simp [getMessagesFromProjectedEntryForCompaction, hcompaction]
    | false =>
      have hrest : (rest.map (projectLater (contextEdits (first :: rest)))).findIdx?
          (fun projected => projected.sourceEntry.isCompaction &&
            !projected.messages.isEmpty) = none := by
        rw [findIdx?_eq_none_iff]
        intro projected hprojected
        obtain ⟨entry, -, rfl⟩ := mem_map.mp hprojected
        cases hentry : entry.isCompaction <;> simp [projectLater, hentry]
      rw [findIdx?_cons, hfirst, hrest]
      simp

/-! ### The prepared messages -/

theorem messagesBetween_append (entries : List ProjectedEntry) {first middle last : Nat}
    (hfirst : first ≤ middle) (hmiddle : middle ≤ last) :
    messagesBetween entries first middle ++ messagesBetween entries middle last =
      messagesBetween entries first last := by
  have hdrop : entries.drop middle = (entries.drop first).drop (middle - first) := by
    rw [drop_drop]
    congr 1
    omega
  have hlast : last - first = (middle - first) + (last - middle) := by omega
  rw [messagesBetween, messagesBetween, messagesBetween, ← flatMap_append,
    drop_take, drop_take, drop_take, hdrop, hlast, take_add]

theorem messagesBetween_eq_nil (entries : List ProjectedEntry) {first last : Nat}
    (hle : last ≤ first) : messagesBetween entries first last = [] := by
  rw [messagesBetween, drop_take, Nat.sub_eq_zero_of_le hle, take_zero]
  rfl

/-- History and split turn together reach from the boundary to the cut. -/
theorem CutSpec.messages {entries : List ProjectedEntry} {startIndex : Nat}
    {cut : CutPointResult} (hspec : CutSpec entries startIndex cut) :
    historyMessages entries startIndex cut ++ prefixMessages entries cut =
      messagesBetween entries startIndex cut.firstKeptEntryIndex := by
  rw [historyMessages, prefixMessages]
  cases hsplit : cut.isSplitTurn with
  | true =>
    obtain ⟨turnStart, hturn, hlow, hhigh⟩ := hspec.turn hsplit
    simp only [if_true, hturn, getD_some]
    exact messagesBetween_append _ hlow hhigh
  | false => simp

variable {path : List SessionEntry} {settings : CompactionSettings}
    {preparation : CompactionPreparation}

/-- What a preparation says of the projection it was made from. -/
theorem prepareProjection_some {projection : Projection}
    (hprojected : ∀ projected ∈ projection.entries, Projected projected)
    (hprepare : prepareProjection path settings projection = some preparation) :
    ∃ index firstKept, projection.entries[index]? = some firstKept ∧
      preparation.firstKeptEntryId = firstKept.sourceEntry.id ∧
      boundaryStart projection.entries < index ∧
      preparation.messagesToSummarize ++ preparation.turnPrefixMessages =
        messagesBetween projection.entries (boundaryStart projection.entries) index ∧
      StartsAtCutPoint (shownMessages (projection.entries.drop index)) := by
  have hspec := @findProjectedCutPoint_spec projection.entries
    (boundaryStart projection.entries) hprojected settings.keepRecentTokens
  have hmessages := hspec.messages
  rw [prepareProjection] at hprepare
  dsimp only at hprepare
  rw [← boundaryStart] at hprepare
  generalize findProjectedCutPoint projection.entries (boundaryStart projection.entries)
    projection.entries.length settings.keepRecentTokens = cut at hspec hmessages hprepare
  split at hprepare
  · cases hprepare
  rename_i firstKept hfirstKept
  split at hprepare
  · cases hprepare
  rename_i hfull
  cases hprepare
  have hlt : boundaryStart projection.entries < cut.firstKeptEntryIndex := by
    by_contra hle
    have hnone := messagesBetween_eq_nil projection.entries (Nat.le_of_not_lt hle)
    rw [hnone, append_eq_nil_iff] at hmessages
    exact hfull ⟨isEmpty_iff.mpr hmessages.1, isEmpty_iff.mpr hmessages.2⟩
  exact ⟨cut.firstKeptEntryIndex, firstKept, hfirstKept, rfl, hlt, hmessages, hspec.shown hlt⟩

/-! ### The context after a compaction -/

/-- Behind the first entry, a compaction shows nothing. -/
theorem conversationOf_eq_filter (entries : List SessionEntry) :
    conversationOf edits entries =
      (shownMessages (entries.map (projectLater edits))).filter
        AgentMessage.isConversation := by
  rw [conversationOf, shownMessages, filter_flatMap, flatMap_map, flatMap_map]
  congr 1
  funext entry
  cases hentry : entry.isCompaction <;>
    simp [getMessagesFromProjectedEntryForCompaction, projectLater, hentry]

variable {compaction : SessionEntry} {fields : Compaction}

/-- A prepared compaction keeps the messages from an index of the projection on and
summarizes those before it. -/
theorem compaction_cuts (hpath : IsPath path) (hedits : EditsFollow path)
    (hprepare : prepareCompaction path settings = some (some preparation))
    (happended : IsPath (path ++ [compaction])) (hfields : compaction.compaction? = some fields)
    (hkept : fields.firstKeptEntryId = preparation.firstKeptEntryId) :
    ∃ index, boundaryStart (projectPath path).entries ≤ index ∧
      preparation.messagesToSummarize ++ preparation.turnPrefixMessages =
        messagesBetween (projectPath path).entries
          (boundaryStart (projectPath path).entries) index ∧
      StartsAtCutPoint (shownMessages ((projectPath path).entries.drop index)) ∧
      ((projectPath path).entries.drop index).flatMap
          getMessagesFromProjectedEntryForCompaction =
        (shownMessages ((projectPath path).entries.drop index)).filter
          AgentMessage.isConversation ∧
      (projectPath (path ++ [compaction])).conversation =
        (shownMessages ((projectPath path).entries.drop index)).filter
          AgentMessage.isConversation := by
  have hprojection : buildSessionProjection path none none = some (projectPath path) := by
    rw [buildSessionProjection, buildSessionPath_of_isPath hpath]
    rfl
  rw [prepareCompaction] at hprepare
  split at hprepare
  · cases hprepare
  rw [hprojection, map_some] at hprepare
  obtain ⟨index, firstKept, hfirst, hid, hlt, hmessages, hshown⟩ :=
    prepareProjection_some (projected_projectEntries _) (some.inj hprepare)
  obtain ⟨count, rfl⟩ : ∃ count, index = count + 1 := ⟨index - 1, by omega⟩
  have hdrop := drop_projectEntries (selectEntries path) count
  have hdropped : (projectPath path).entries.drop (count + 1) =
      ((selectEntries path).drop (count + 1)).map
        (projectLater (contextEdits (selectEntries path))) := hdrop
  refine ⟨count + 1, hlt.le, hmessages, hshown, ?_, ?_⟩
  · rw [hdropped, ← conversationOf_eq_filter]
    rfl
  -- The entry at the index stands behind others, so the compaction keeps it.
  have hsource : (selectEntries path)[count + 1]? = some firstKept.sourceEntry := by
    have hhead : ((projectPath path).entries.drop (count + 1))[0]? = some firstKept := by
      rw [getElem?_drop]
      exact hfirst
    rw [hdropped, getElem?_map, getElem?_drop, map_eq_some_iff] at hhead
    obtain ⟨entry, hentry, rfl⟩ := hhead
    exact hentry
  obtain ⟨hbound, hentry⟩ := List.getElem?_eq_some_iff.mp hsource
  have hselected : selectEntries path = (selectEntries path).take (count + 1) ++
      firstKept.sourceEntry :: (selectEntries path).drop (count + 2) := by
    rw [← hentry, ← drop_eq_getElem_cons hbound, take_append_drop]
  have hnew : ∀ other ∈ path, other.id ≠ compaction.id := by
    have hdistinct := happended.distinct
    rw [map_append, nodup_append] at hdistinct
    intro other hother
    exact hdistinct.2.2 other.id (mem_map_of_mem hother) compaction.id (by simp)
  have hbehind : (selectEntries path).take (count + 1) = [] →
      firstKept.sourceEntry.isCompaction = false := by
    intro hnil
    rw [take_eq_nil_iff] at hnil
    rcases hnil with hzero | hnil
    · omega
    rw [hnil] at hbound
    simp at hbound
  rw [conversation_compacted hpath.distinct hedits hselected hbehind hfields hnew
    (hkept.trans hid), conversationOf_eq_filter, hdropped, ← hentry,
    ← drop_eq_getElem_cons hbound]

theorem flatMap_split {α β : Type} (items : List α) (image : α → List β)
    {first last : Nat} (hle : first ≤ last) :
    items.flatMap image = (items.take first).flatMap image ++
      (((items.take last).drop first).flatMap image ++ (items.drop last).flatMap image) := by
  have htake := take_append_drop first (items.take last)
  rw [take_take, Nat.min_eq_left hle] at htake
  rw [← append_assoc, ← flatMap_append, htake, ← flatMap_append, take_append_drop]

/-- The conversation of a projection is what was summarized, what was put in a turn's
summary and what the new projection shows. -/
theorem compaction_partitions {path : List SessionEntry}
    {settings : CompactionSettings} {preparation : CompactionPreparation}
    {compaction : SessionEntry} {fields : Compaction} (hpath : IsPath path)
    (hedits : EditsFollow path)
    (hprepare : prepareCompaction path settings = some (some preparation))
    (happended : IsPath (path ++ [compaction])) (hfields : compaction.compaction? = some fields)
    (hkept : fields.firstKeptEntryId = preparation.firstKeptEntryId) :
    ∃ before after, buildSessionProjection path none none = some before ∧
      buildSessionProjection (path ++ [compaction]) none none = some after ∧
      before.conversation = preparation.messagesToSummarize ++
        preparation.turnPrefixMessages ++ after.conversation := by
  obtain ⟨index, hstart, hmessages, -, hrest, hafter⟩ :=
    compaction_cuts hpath hedits hprepare happended hfields hkept
  refine ⟨projectPath path, projectPath (path ++ [compaction]), ?_, ?_, ?_⟩
  · rw [buildSessionProjection, buildSessionPath_of_isPath hpath]
    rfl
  · rw [buildSessionProjection, buildSessionPath_of_isPath happended]
    rfl
  rw [hmessages, hafter, ← hrest]
  have hfront : ((projectPath path).entries.take (boundaryStart (projectPath path).entries)).flatMap
        getMessagesFromProjectedEntryForCompaction = [] :=
    take_boundaryStart (selectEntries path)
  rw [Projection.conversation, flatMap_split _ _ hstart, hfront, nil_append]
  rfl

/-- A question that a tool answered, with the answer shortened, and a later one. -/
def toolPath : List SessionEntry :=
  let text (length : Nat) : Content := .text (js (List.replicate length 'x'))
  [⟨js ['a'], none, 0, .message (.user (some (text 8)) 0)⟩,
    ⟨js ['b'], some (js ['a']), 1, .message (.assistant
      (some (.blocks [.text (js ['t']), .toolCall (js ['c']) (js ['r']) .null])) [] [] none
      .toolUse 1)⟩,
    ⟨js ['c'], some (js ['b']), 2, .message (.toolResult (js ['c']) (js ['r'])
      (some (text 8)) [] false 2)⟩,
    ⟨js ['d'], some (js ['c']), 3, .label (js ['a']) (some (js ['l']))⟩,
    ⟨js ['e'], some (js ['d']), 4, .contextEdit (js ['c']) (some (text 4))⟩,
    ⟨js ['f'], some (js ['e']), 5, .message (.user (some (text 4)) 5)⟩]

/-- The compaction of that path that keeps three tokens. -/
def toolCompaction : Compaction := ⟨js ['s'], js ['b'], 9, none, none, none, none⟩

def compactedToolPath : List SessionEntry :=
  toolPath ++ [⟨js ['g'], some (js ['f']), 6, .compaction toolCompaction⟩]

theorem isPath_toolPath : IsPath toolPath :=
  ⟨by decide, none, by simp [toolPath, Linked], by simp⟩

theorem isPath_compactedToolPath : IsPath compactedToolPath :=
  ⟨by decide, none, by simp [compactedToolPath, toolPath, Linked], by simp⟩

theorem editsFollow_toolPath : EditsFollow toolPath := by
  unfold EditsFollow
  decide

theorem prepareCompaction_toolPath : ∃ preparation,
    prepareCompaction toolPath ⟨true, 0, 3⟩ = some (some preparation) ∧
      preparation.firstKeptEntryId = toolCompaction.firstKeptEntryId :=
  ⟨_, rfl, rfl⟩

theorem compaction_partitions_toolPath : ∃ preparation before after,
    prepareCompaction toolPath ⟨true, 0, 3⟩ = some (some preparation) ∧
      buildSessionProjection toolPath none none = some before ∧
      buildSessionProjection compactedToolPath none none = some after ∧
      before.conversation = preparation.messagesToSummarize ++
        preparation.turnPrefixMessages ++ after.conversation := by
  obtain ⟨preparation, hprepare, hkept⟩ := prepareCompaction_toolPath
  obtain ⟨before, after, hsame⟩ := compaction_partitions isPath_toolPath
    editsFollow_toolPath hprepare isPath_compactedToolPath rfl hkept.symm
  exact ⟨preparation, before, after, hprepare, hsame⟩

/-! ### Tool results -/

/-- The call that a tool result answers. -/
def AgentMessage.toolCallId? : AgentMessage → Option JsString
  | .toolResult toolCallId _ _ _ _ _ => some toolCallId
  | _ => none

/-- The message is an assistant's and carries the call. -/
def AgentMessage.carriesCall (id : JsString) : AgentMessage → Bool
  | .assistant (some (.blocks blocks)) _ _ _ _ _ => blocks.any fun block =>
    match block with
    | .toolCall callId _ _ => callId = id
    | _ => false
  | _ => false

/-- Each tool result follows the assistant message with its call, with tool results
only between them. -/
def ResultsFollowCalls (messages : List AgentMessage) : Prop :=
  ∀ front (message : AgentMessage) back, messages = front ++ message :: back →
    ∀ id ∈ message.toolCallId?, ∃ before, ∃ call : AgentMessage, ∃ results : List AgentMessage,
      front = before ++ call :: results ∧ call.carriesCall id = true ∧
        ∀ result ∈ results, result.role = Role.toolResult

variable {message : AgentMessage}

theorem role_of_toolCallId? {id : JsString}
    (hid : id ∈ message.toolCallId?) : message.role = .toolResult := by
  cases message with
  | toolResult _ _ _ _ _ _ => rfl
  | _ => cases hid

theorem role_of_carriesCall {id : JsString}
    (hcall : message.carriesCall id = true) : message.role = .assistant := by
  cases message with
  | assistant _ _ _ _ _ _ => rfl
  | _ => cases hcall

theorem filter_results {results : List AgentMessage}
    (hresults : ∀ result ∈ results, result.role = .toolResult) :
    results.filter AgentMessage.isConversation = results := by
  rw [filter_eq_self]
  intro result hresult
  rw [AgentMessage.isConversation, hresults result hresult]
  rfl

/-- What is shown from a cut point on keeps its calls, without its system messages
and behind messages that answer no call. -/
theorem resultsFollowCalls_cut {cutOff shown own : List AgentMessage}
    (hpaired : ResultsFollowCalls (cutOff ++ shown)) (hcut : StartsAtCutPoint shown)
    (hown : ∀ message ∈ own, message.role ≠ .toolResult) :
    ResultsFollowCalls (own ++ shown.filter AgentMessage.isConversation) := by
  intro front message back hsplit id hid
  have hrole := role_of_toolCallId? hid
  -- The tool result stands among the messages that are kept.
  obtain ⟨kept, rfl, hkept⟩ : ∃ kept, front = own ++ kept ∧
      shown.filter AgentMessage.isConversation = kept ++ message :: back := by
    rcases append_eq_append_iff.mp hsplit with ⟨kept, hfront, hkept⟩ | ⟨kept, hfront, hkept⟩
    · exact ⟨kept, hfront, hkept⟩
    cases kept with
    | nil => exact ⟨[], by simpa using hfront.symm, by simpa using hkept.symm⟩
    | cons first rest =>
      cases hkept
      exact absurd hrole (hown message (by simp [hfront]))
  obtain ⟨earlier, later, rfl, hearlier, hlater⟩ := filter_eq_append_iff.mp hkept
  obtain ⟨hidden, rest, rfl, hhidden, -, -⟩ := filter_eq_cons_iff.mp hlater
  obtain ⟨before, call, results, hbefore, hcall, hresults⟩ :=
    hpaired (cutOff ++ (earlier ++ hidden)) message rest (by simp) id hid
  have hfilter : (earlier ++ hidden).filter AgentMessage.isConversation = kept := by
    rw [filter_append, hearlier, filter_eq_nil_iff.mpr hhidden, append_nil]
  have hconversation : call.isConversation = true := by
    rw [AgentMessage.isConversation, role_of_carriesCall hcall]
    rfl
  have hfound : ∀ between, earlier ++ hidden = between ++ call :: results →
      ∃ before, ∃ call : AgentMessage, ∃ results : List AgentMessage,
        own ++ kept = before ++ call :: results ∧
        call.carriesCall id = true ∧ ∀ result ∈ results, result.role = Role.toolResult := by
    intro between hbetween
    refine ⟨own ++ between.filter AgentMessage.isConversation, call, results, ?_, hcall, hresults⟩
    rw [← hfilter, hbetween, filter_append, filter_cons_of_pos hconversation,
      filter_results hresults, append_assoc]
  rcases append_eq_append_iff.mp hbefore with
    ⟨between, -, hbetween⟩ | ⟨between, -, hbetween⟩
  · exact hfound between hbetween
  cases between with
  | nil => exact hfound [] (by simpa using hbetween.symm)
  | cons first between =>
    -- Everything before the result would be a tool result, the cut point too.
    exfalso
    obtain ⟨-, hrest⟩ := cons.inj hbetween
    have hall : ∀ other ∈ earlier ++ hidden, other.role = .toolResult := by
      intro other hother
      apply hresults
      rw [hrest]
      exact mem_append_right _ hother
    have hfirst : ∃ other, (earlier ++ (hidden ++ message :: rest)).head? = some other ∧
        other.role = .toolResult := by
      rw [← append_assoc]
      cases hfront : earlier ++ hidden with
      | nil => exact ⟨message, rfl, hrole⟩
      | cons other more => exact ⟨other, rfl, hall other (by simp [hfront])⟩
    obtain ⟨other, hhead, hother⟩ := hfirst
    have hpoint := hcut other hhead
    rw [isCutPointMessage, hother] at hpoint
    cases hpoint

theorem shownMessages_kept {edits : List (EntryId × Option Content)}
    (firstKeptEntryId : EntryId) (path : List SessionEntry) :
    shownMessages ((keptEntries firstKeptEntryId path).map (projectLater edits)) =
      conversationOf edits (keptEntries firstKeptEntryId path) := by
  rw [conversationOf_eq_filter, eq_comm, filter_eq_self]
  intro message hmessage
  obtain ⟨projected, hprojected, hmessage⟩ := mem_flatMap.mp hmessage
  obtain ⟨entry, hentry, rfl⟩ := mem_map.mp hprojected
  have hsystem : entry.isSystem = false := by
    simpa using (mem_filter.mp hentry).2
  have hrole := role_projectLater hsystem message hmessage
  simpa [AgentMessage.isConversation] using hrole

/-- A compaction's own messages answer no call. -/
theorem role_projectFirst_compaction {edits : List (EntryId × Option Content)}
    (hfields : compaction.compaction? = some fields) :
    ∀ message ∈ (projectFirst edits compaction).messages, message.role ≠ .toolResult := by
  have hbody : compaction.body = .compaction fields := body_of_compaction? hfields
  have hsource : ∀ message ∈ sessionEntryToContextMessages compaction,
      message.role ≠ .toolResult := by
    intro message hmessage
    cases hsystem : fields.systemMessage with
    | none =>
      simp [sessionEntryToContextMessages, hbody, hsystem] at hmessage
      simp [hmessage, AgentMessage.role]
    | some system =>
      simp [sessionEntryToContextMessages, hbody, hsystem] at hmessage
      rcases hmessage with rfl | rfl <;> simp [AgentMessage.role]
  intro message hmessage
  rw [projectFirst] at hmessage
  generalize PropertyList.get compaction.id edits = edit at hmessage
  rcases edit with _ | _ | content
  · exact hsource message hmessage
  · simp [projectContextEntry] at hmessage
  obtain ⟨inner, hinner, rfl⟩ := mem_map.mp hmessage
  rw [role_replaceContent]
  exact hsource inner hinner

/-- A compaction orphans no tool result. -/
theorem compaction_keeps_calls {path : List SessionEntry}
    {settings : CompactionSettings} {preparation : CompactionPreparation}
    {compaction : SessionEntry} {fields : Compaction} (hpath : IsPath path)
    (hedits : EditsFollow path)
    (hprepare : prepareCompaction path settings = some (some preparation))
    (happended : IsPath (path ++ [compaction])) (hfields : compaction.compaction? = some fields)
    (hkept : fields.firstKeptEntryId = preparation.firstKeptEntryId)
    {before : Projection} (hbefore : buildSessionProjection path none none = some before)
    (hpaired : ResultsFollowCalls before.messages) :
    ∃ after, buildSessionProjection (path ++ [compaction]) none none = some after ∧
      ResultsFollowCalls after.messages := by
  obtain ⟨index, -, -, hcut, -, hafter⟩ :=
    compaction_cuts hpath hedits hprepare happended hfields hkept
  rw [buildSessionProjection, buildSessionPath_of_isPath hpath] at hbefore
  cases hbefore
  refine ⟨projectPath (path ++ [compaction]), ?_, ?_⟩
  · rw [buildSessionProjection, buildSessionPath_of_isPath happended]
    rfl
  have hnew : ∀ other ∈ path, other.id ≠ compaction.id := by
    have hdistinct := happended.distinct
    rw [map_append, nodup_append] at hdistinct
    intro other hother
    exact hdistinct.2.2 other.id (List.mem_map_of_mem hother) compaction.id (by simp)
  have hentries := projectPath_compaction hfields hnew
  have hcompaction : compaction.isCompaction = true := by
    rw [SessionEntry.isCompaction, hfields]
    rfl
  have hmessages : (projectPath (path ++ [compaction])).messages =
      (projectFirst (contextEdits (compaction :: keptEntries fields.firstKeptEntryId path))
        compaction).messages ++ (projectPath (path ++ [compaction])).conversation := by
    have hshown : (projectPath (path ++ [compaction])).messages =
        shownMessages (projectPath (path ++ [compaction])).entries := rfl
    have hown : getMessagesFromProjectedEntryForCompaction (projectFirst
        (contextEdits (compaction :: keptEntries fields.firstKeptEntryId path)) compaction) = [] :=
      if_pos hcompaction
    rw [hshown, Projection.conversation, hentries, shownMessages, flatMap_cons,
      flatMap_cons, hown, nil_append]
    exact congrArg _ (shownMessages_kept fields.firstKeptEntryId path)
  have hwhole : (projectPath path).messages =
      shownMessages ((projectPath path).entries.take index) ++
        shownMessages ((projectPath path).entries.drop index) := by
    rw [shownMessages, shownMessages, ← flatMap_append, take_append_drop]
    rfl
  rw [hwhole] at hpaired
  rw [hmessages, hafter]
  exact resultsFollowCalls_cut hpaired hcut (role_projectFirst_compaction hfields)

theorem resultsFollowCalls_toolPath : ResultsFollowCalls (projectPath toolPath).messages := by
  rintro (_ | ⟨question, _ | ⟨call, _ | ⟨result, _ | ⟨later, rest⟩⟩⟩⟩) message back hsplit id hid
  · cases hsplit
    cases hid
  · cases hsplit
    cases hid
  · cases hsplit
    exact ⟨[_], _, [], rfl, by cases hid; rfl, by simp⟩
  · cases hsplit
    cases hid
  have hlength : 4 = (question :: call :: result :: later :: rest ++ message :: back).length :=
    congrArg length hsplit
  simp at hlength

theorem compaction_keeps_calls_toolPath : ∃ after,
    buildSessionProjection compactedToolPath none none = some after ∧
      ResultsFollowCalls after.messages := by
  obtain ⟨preparation, hprepare, hkept⟩ := prepareCompaction_toolPath
  exact compaction_keeps_calls isPath_toolPath editsFollow_toolPath hprepare
    isPath_compactedToolPath rfl hkept.symm rfl resultsFollowCalls_toolPath

end Hummin.Session
