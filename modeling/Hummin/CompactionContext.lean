/-
What a compaction keeps of a session.  System messages and compactions aside, the
entries kept from an entry on are those that the projection showed from it on, and
the edits that concern them are kept with them.
-/
import Hummin.Compaction
import Hummin.SessionCompaction

namespace Hummin.Session

open List PropertyList

/-! ### Relevant entries -/

/-- Neither a system message nor a compaction. -/
def SessionEntry.isRelevant (entry : SessionEntry) : Bool :=
  !entry.isSystem && !entry.isCompaction

def relevant (entries : List SessionEntry) : List SessionEntry :=
  entries.filter SessionEntry.isRelevant

theorem relevant_append (front back : List SessionEntry) :
    relevant (front ++ back) = relevant front ++ relevant back := by
  rw [relevant, filter_append]
  rfl

variable (edits : List (EntryId × Option Content)) (entries : List SessionEntry)

theorem relevant_filter :
    relevant (entries.filter fun entry => !entry.isSystem) = relevant entries := by
  rw [relevant, relevant, filter_filter]
  congr 1
  funext entry
  cases hsystem : entry.isSystem <;> simp [SessionEntry.isRelevant, hsystem]

variable {path front back : List SessionEntry} {entry : SessionEntry}

theorem relevant_compaction (hentry : entry.isCompaction = true)
    (rest : List SessionEntry) : relevant (entry :: rest) = relevant rest := by
  rw [relevant, filter_cons_of_neg (by simp [SessionEntry.isRelevant, hentry])]
  rfl

theorem edit?_eq_none (hentry : entry.isRelevant = false) : entry.edit? = none := by
  cases hbody : entry.body with
  | contextEdit _ _ =>
    simp [SessionEntry.isRelevant, SessionEntry.isSystem, SessionEntry.isCompaction,
      SessionEntry.compaction?, hbody] at hentry
  | _ => simp [SessionEntry.edit?, hbody]

theorem get_contextEdits_relevant (id : EntryId) :
    get id (contextEdits (relevant entries)) = get id (contextEdits entries) := by
  induction entries with
  | nil => rfl
  | cons entry rest ih =>
    rw [← singleton_append, relevant_append, get_contextEdits_append, ih, get_contextEdits_append]
    cases hentry : entry.isRelevant with
    | true => simp [relevant, hentry]
    | false =>
      have hnone : relevant [entry] = [] := by simp [relevant, hentry]
      have hempty : get id (contextEdits []) = none := rfl
      rw [get_contextEdits_singleton entry, edit?_eq_none hentry, hnone, hempty]
      rfl

/-! ### Conversations -/

/-- The conversation of entries that are not the first ones. -/
def conversationOf (edits : List (EntryId × Option Content))
    (entries : List SessionEntry) : List AgentMessage :=
  (entries.map (projectLater edits)).flatMap getMessagesFromProjectedEntryForCompaction

theorem conversationOf_append (front back : List SessionEntry) :
    conversationOf edits (front ++ back) =
      conversationOf edits front ++ conversationOf edits back := by
  rw [conversationOf, map_append, flatMap_append]
  rfl

theorem role_of_isSystem {edits : List (EntryId × Option Content)}
    {entry : SessionEntry} (hentry : entry.isSystem = true) :
    ∀ message ∈ (projectLater edits entry).messages, message.role = .system := by
  obtain ⟨system, hbody⟩ : ∃ system, entry.body = .message (.system system) := by
    rw [SessionEntry.isSystem] at hentry
    split at hentry
    · exact ⟨_, ‹_›⟩
    · cases hentry
  have hcompaction : entry.isCompaction = false := by
    simp [SessionEntry.isCompaction, SessionEntry.compaction?, hbody]
  intro message hmessage
  rw [projectLater] at hmessage
  rw [hcompaction, if_neg (by simp)] at hmessage
  generalize get entry.id edits = edit at hmessage
  rcases edit with _ | _ | content
  · simp [projectContextEntry, sessionEntryToContextMessages, hbody] at hmessage
    rw [hmessage]
    rfl
  · simp [projectContextEntry] at hmessage
  simp [projectContextEntry, sessionEntryToContextMessages, hbody] at hmessage
  rw [hmessage]
  rfl

theorem conversation_of_not_relevant {edits : List (EntryId × Option Content)}
    {entry : SessionEntry} (hentry : entry.isRelevant = false) :
    getMessagesFromProjectedEntryForCompaction (projectLater edits entry) = [] := by
  rw [getMessagesFromProjectedEntryForCompaction]
  split
  · rfl
  rename_i hcompaction
  have hsystem : entry.isSystem = true := by
    by_contra hother
    simp_all [SessionEntry.isRelevant, projectLater]
  rw [filter_eq_nil_iff]
  intro message hmessage
  simp [AgentMessage.isConversation, role_of_isSystem hsystem message hmessage]

theorem conversationOf_relevant :
    conversationOf edits (relevant entries) = conversationOf edits entries := by
  induction entries with
  | nil => rfl
  | cons entry rest ih =>
    rw [← singleton_append, relevant_append, conversationOf_append, ih, conversationOf_append]
    cases hentry : entry.isRelevant with
    | true => simp [relevant, hentry]
    | false =>
      have hnone := @conversation_of_not_relevant edits entry hentry
      simp [relevant, hentry, conversationOf, hnone]

/-- The conversation depends on the edits of its entries only. -/
theorem conversationOf_congr {edits other : List (EntryId × Option Content)}
    {entries : List SessionEntry} (hedits : ∀ entry ∈ entries,
      get entry.id edits = get entry.id other) :
    conversationOf edits entries = conversationOf other entries := by
  have hmap : entries.map (projectLater edits) = entries.map (projectLater other) := by
    apply map_congr_left
    intro entry hentry
    rw [projectLater, projectLater, hedits entry hentry]
  rw [conversationOf, conversationOf, hmap]

/-! ### What is kept -/

theorem relevant_keptEntries (hdistinct : ((front ++ entry :: back).map SessionEntry.id).Nodup) :
    relevant (keptEntries entry.id (front ++ entry :: back)) = relevant (entry :: back) := by
  rw [keptEntries, dropWhile_id hdistinct, relevant_filter]

/-- The leading entry of a selection may be a compaction; an entry behind it is
kept with what follows it there. -/
theorem relevant_kept_of_selected (hdistinct : (path.map SessionEntry.id).Nodup)
    (hselected : selectEntries path = front ++ entry :: back)
    (hbehind : front = [] → entry.isCompaction = false) :
    relevant (keptEntries entry.id path) = relevant (entry :: back) := by
  cases hlast : lastCompaction path with
  | none =>
    rw [selectEntries, hlast] at hselected
    obtain rfl : path = front ++ entry :: back := hselected
    exact relevant_keptEntries hdistinct
  | some found =>
    obtain ⟨compaction, fields⟩ := found
    obtain ⟨hfields, before, after, rfl, hafter⟩ := lastCompaction_eq_some hlast
    have hcompaction : compaction.isCompaction = true := by
      rw [SessionEntry.isCompaction, hfields]
      rfl
    have hbefore : ∀ other ∈ before, other.id ≠ compaction.id := by
      intro other hother
      rw [map_append, nodup_append] at hdistinct
      exact hdistinct.2.2 other.id (mem_map_of_mem hother) compaction.id (by simp)
    rw [selectEntries_eq hfields hafter hbefore] at hselected
    rcases cons_eq_append_iff.mp hselected with ⟨rfl, hhead⟩ | ⟨front', rfl, hrest⟩
    · cases hhead
      rw [hcompaction] at hbehind
      cases hbehind rfl
    rcases append_eq_append_iff.mp hrest with
      ⟨more, rfl, hmore⟩ | ⟨more, hkept, hmore⟩
    · -- The entry stands behind the compaction.
      rw [hmore] at hdistinct ⊢
      have hsplit : before ++ compaction :: (more ++ entry :: back) =
          (before ++ compaction :: more) ++ entry :: back := by simp
      rw [hsplit] at hdistinct ⊢
      exact relevant_keptEntries hdistinct
    cases more with
    | nil =>
      rw [nil_append] at hmore
      have hsplit : before ++ compaction :: after =
          (before ++ [compaction]) ++ entry :: back := by simp [← hmore]
      rw [hsplit] at hdistinct ⊢
      exact relevant_keptEntries hdistinct
    | cons first more =>
      -- The entry is one of those that the compaction kept.
      obtain ⟨rfl, hback⟩ := cons.inj hmore
      rw [keptEntries, filter_eq_append_iff] at hkept
      obtain ⟨skipped, others, hdrop, -, hothers⟩ := hkept
      obtain ⟨hidden, visible, rfl, -, -, hvisible⟩ :=
        filter_eq_cons_iff.mp hothers
      have hsplit : before ++ compaction :: after =
          (before.takeWhile (fun other => other.id ≠ fields.firstKeptEntryId) ++
            (skipped ++ hidden)) ++ entry :: (visible ++ compaction :: after) := by
        conv_lhs => rw [← takeWhile_append_dropWhile
          (p := fun other : SessionEntry => other.id ≠ fields.firstKeptEntryId)
          (l := before), hdrop]
        simp
      have hkeptEntries : relevant (entry :: more) = relevant (entry :: visible) := by
        rw [← singleton_append, relevant_append, ← hvisible, relevant_filter, ← relevant_append]
        rfl
      rw [hsplit] at hdistinct ⊢
      rw [relevant_keptEntries hdistinct, hback, append_eq,
        ← cons_append, ← cons_append, relevant_append, relevant_append,
        relevant_compaction hcompaction, hkeptEntries]

/-! ### Edits stay with what they edit -/

/-- No edit stands before the entry it edits. -/
def EditsFollow (path : List SessionEntry) : Prop :=
  path.Pairwise fun earlier later => ∀ edit ∈ earlier.edit?, edit.1 ≠ later.id

theorem editsFollow_selected (hdistinct : (path.map SessionEntry.id).Nodup)
    (hedits : EditsFollow path) : EditsFollow (selectEntries path) := by
  cases hlast : lastCompaction path with
  | none =>
    rw [selectEntries, hlast]
    exact hedits
  | some found =>
    obtain ⟨compaction, fields⟩ := found
    obtain ⟨hfields, before, after, rfl, hafter⟩ := lastCompaction_eq_some hlast
    have hbefore : ∀ other ∈ before, other.id ≠ compaction.id := by
      intro other hother
      rw [map_append, nodup_append] at hdistinct
      exact hdistinct.2.2 other.id (mem_map_of_mem hother) compaction.id (by simp)
    have hnone : compaction.edit? = none := by
      apply edit?_eq_none
      rw [SessionEntry.isRelevant, SessionEntry.isCompaction, hfields]
      simp
    have hkept : (keptEntries fields.firstKeptEntryId before ++ after).Sublist
        (before ++ compaction :: after) :=
      (filter_sublist.trans (dropWhile_sublist _)).append
        (sublist_cons_self compaction after)
    rw [selectEntries_eq hfields hafter hbefore]
    refine pairwise_cons.mpr ⟨?_, hedits.sublist hkept⟩
    intro other _ edit hedit
    rw [hnone] at hedit
    cases hedit

/-- An entry of a selection is edited by what follows the front it stands behind. -/
theorem get_contextEdits_selected (hedits : EditsFollow (front ++ back)) {entry : SessionEntry}
    (hentry : entry ∈ back) :
    get entry.id (contextEdits (front ++ back)) = get entry.id (contextEdits back) := by
  have hfront : get entry.id (contextEdits front) = none := by
    apply get_contextEdits_eq_none
    intro other hother
    exact (pairwise_append.mp hedits).2.2 other hother entry hentry
  rw [get_contextEdits_append, hfront, Option.or_none]

/-! ### The conversation of a projection -/

/-- The messages that are neither prompt state nor a compaction's own. -/
def Projection.conversation (projection : Projection) : List AgentMessage :=
  projection.entries.flatMap getMessagesFromProjectedEntryForCompaction

variable {compaction : SessionEntry}

variable {fields : Compaction}

theorem projectPath_compaction (hfields : compaction.compaction? = some fields)
    (hnew : ∀ other ∈ path, other.id ≠ compaction.id) :
    (projectPath (path ++ [compaction])).entries =
      projectFirst
        (contextEdits (compaction :: keptEntries fields.firstKeptEntryId path))
        compaction ::
      (keptEntries fields.firstKeptEntryId path).map (projectLater
        (contextEdits (compaction :: keptEntries fields.firstKeptEntryId path))) := by
  have hselect := @selectEntries_eq path [] compaction fields hfields (by simp) hnew
  rw [append_nil] at hselect
  rw [projectPath]
  rw [hselect, projectEntries]

/-- The new projection shows the conversation from the first kept entry on. -/
theorem conversation_compacted
    (hdistinct : (path.map SessionEntry.id).Nodup) (hedits : EditsFollow path)
    (hselected : selectEntries path = front ++ entry :: back)
    (hbehind : front = [] → entry.isCompaction = false)
    (hfields : compaction.compaction? = some fields)
    (hnew : ∀ other ∈ path, other.id ≠ compaction.id) (hkept : fields.firstKeptEntryId = entry.id) :
    (projectPath (path ++ [compaction])).conversation =
      conversationOf (contextEdits (selectEntries path)) (entry :: back) := by
  have hcompaction : compaction.isCompaction = true := by
    rw [SessionEntry.isCompaction, hfields]
    rfl
  have hrelevant := relevant_kept_of_selected hdistinct hselected hbehind
  have hfollow := editsFollow_selected hdistinct hedits
  rw [hselected] at hfollow
  have hlookup : ∀ other ∈ relevant (entry :: back),
      get other.id (contextEdits (compaction :: keptEntries entry.id path)) =
        get other.id (contextEdits (selectEntries path)) := by
    intro other hother
    have hmem : other ∈ entry :: back := mem_of_mem_filter hother
    rw [hselected, get_contextEdits_selected hfollow hmem, ← get_contextEdits_relevant,
      relevant_compaction hcompaction, hrelevant, get_contextEdits_relevant]
  have hentries := projectPath_compaction hfields hnew
  rw [Projection.conversation, hentries, flatMap_cons, hkept]
  have hown : getMessagesFromProjectedEntryForCompaction (projectFirst
      (contextEdits (compaction :: keptEntries entry.id path)) compaction) = [] :=
    if_pos hcompaction
  rw [hown, nil_append]
  calc conversationOf (contextEdits (compaction :: keptEntries entry.id path))
        (keptEntries entry.id path)
      = conversationOf (contextEdits (compaction :: keptEntries entry.id path))
          (relevant (entry :: back)) := by rw [← conversationOf_relevant, hrelevant]
    _ = conversationOf (contextEdits (selectEntries path)) (relevant (entry :: back)) :=
        conversationOf_congr hlookup
    _ = conversationOf (contextEdits (selectEntries path)) (entry :: back) :=
        conversationOf_relevant _ _

end Hummin.Session
