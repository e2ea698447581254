/-
A branched session shows the context of the path that it was taken from.  Labels show
nothing, and what else the path's entries show depends neither on their parents nor on
where a compaction keeps from: what a path shows is a function of its essence.
-/
import Hummin.SessionBranch

namespace Hummin.Session

open List PropertyList

/-! ### Essences -/

/-- The entry without its parent and, for a compaction, its first kept entry. -/
def core (entry : SessionEntry) : SessionEntry :=
  match entry.body with
  | .compaction fields => { entry with
      parentId := none
      body := .compaction { fields with firstKeptEntryId := [] } }
  | _ => { entry with parentId := none }

def unlabelled (entries : List SessionEntry) : List SessionEntry :=
  entries.filter fun entry => !entry.isLabel

def essence (entries : List SessionEntry) : List SessionEntry :=
  (unlabelled entries).map core

variable (front back : List SessionEntry)

theorem unlabelled_append : unlabelled (front ++ back) = unlabelled front ++ unlabelled back :=
  filter_append front back

variable (edits : List (EntryId × Option Content)) (entries : List SessionEntry)
    {path : List SessionEntry} {entry : SessionEntry}

theorem unlabelled_label (hentry : entry.isLabel = true)
    (rest : List SessionEntry) : unlabelled (entry :: rest) = unlabelled rest :=
  filter_cons_of_neg (by simp [hentry])

theorem unlabelled_cons (hentry : entry.isLabel = false)
    (rest : List SessionEntry) : unlabelled (entry :: rest) = entry :: unlabelled rest :=
  filter_cons_of_pos (by simp [hentry])

theorem essence_append : essence (front ++ back) = essence front ++ essence back := by
  rw [essence, unlabelled_append, map_append]
  rfl

@[simp] theorem core_id (entry : SessionEntry) : (core entry).id = entry.id := by
  rw [core]
  split <;> rfl

@[simp] theorem core_isLabel (entry : SessionEntry) : (core entry).isLabel = entry.isLabel := by
  rw [core]
  split <;> simp_all [SessionEntry.isLabel]

@[simp] theorem core_isSystem (entry : SessionEntry) : (core entry).isSystem = entry.isSystem := by
  rw [core]
  split <;> simp_all [SessionEntry.isSystem]

@[simp] theorem core_isCompaction (entry : SessionEntry) :
    (core entry).isCompaction = entry.isCompaction := by
  rw [core]
  split <;> simp_all [SessionEntry.isCompaction, SessionEntry.compaction?]

@[simp] theorem core_edit? (entry : SessionEntry) : (core entry).edit? = entry.edit? := by
  rw [core]
  split <;> simp_all [SessionEntry.edit?]

@[simp] theorem sessionEntryToContextMessages_core (entry : SessionEntry) :
    sessionEntryToContextMessages (core entry) = sessionEntryToContextMessages entry := by
  rw [core]
  split <;> simp_all [sessionEntryToContextMessages]

@[simp] theorem projectContextEntry_core (entry : SessionEntry) (edit : Option (Option Content)) :
    projectContextEntry (core entry) edit = projectContextEntry entry edit := by
  simp [projectContextEntry]

@[simp] theorem applySettings_core (settings : ContextSettings) (entry : SessionEntry) :
    applySettings settings (core entry) = applySettings settings entry := by
  rw [core]
  split <;> simp_all [applySettings]

@[simp] theorem core_rechain (parentId : Option EntryId)
    (replacements : List (EntryId × EntryId)) (entry : SessionEntry) :
    core (rechain parentId replacements entry) = core entry := by
  rw [rechain]
  split <;> simp_all [core]

/-- A fold that labels do not change, and that reads cores only, is one over the
essence. -/
theorem foldl_essence {S : Type} (step : S → SessionEntry → S)
    (hlabel : ∀ state entry, entry.isLabel = true → step state entry = state)
    (hcore : ∀ state entry, step state (core entry) = step state entry)
    (entries : List SessionEntry) (start : S) :
    (essence entries).foldl step start = entries.foldl step start := by
  induction entries generalizing start with
  | nil => rfl
  | cons entry rest ih =>
    rw [foldl_cons, ← ih]
    cases hentry : entry.isLabel with
    | true => rw [essence, unlabelled_label hentry, hlabel start entry hentry]; rfl
    | false =>
      rw [essence, unlabelled_cons hentry, map_cons, foldl_cons, hcore]
      rfl

theorem getSessionContextSettings_essence :
    getSessionContextSettings (essence entries) = getSessionContextSettings entries := by
  apply foldl_essence
  · intro settings entry hentry
    rw [SessionEntry.isLabel] at hentry
    split at hentry <;> simp_all [applySettings]
  · exact applySettings_core

theorem contextEdits_essence : contextEdits (essence entries) = contextEdits entries := by
  apply foldl_essence
  · intro edits entry hentry
    rw [SessionEntry.isLabel] at hentry
    split at hentry <;> simp_all [SessionEntry.edit?]
  intro edits entry
  rw [core_edit?]

theorem sessionEntryToContextMessages_label
    (hentry : entry.isLabel = true) : sessionEntryToContextMessages entry = [] := by
  rw [SessionEntry.isLabel] at hentry
  split at hentry <;> simp_all [sessionEntryToContextMessages]

theorem projectContextEntry_label (hentry : entry.isLabel = true)
    (edit : Option (Option Content)) : projectContextEntry entry edit = [] := by
  simp only [projectContextEntry, sessionEntryToContextMessages_label hentry]
  rcases edit with _ | _ | content <;> rfl

/-- What entries show that are not the first ones. -/
def shownLater (edits : List (EntryId × Option Content)) (entries : List SessionEntry) :
    List AgentMessage :=
  entries.flatMap fun entry => (projectLater edits entry).messages

theorem shownLater_essence : shownLater edits (essence entries) = shownLater edits entries := by
  induction entries with
  | nil => rfl
  | cons entry rest ih =>
    have hcons : shownLater edits (entry :: rest) =
        (projectLater edits entry).messages ++ shownLater edits rest := rfl
    rw [hcons, ← ih]
    cases hentry : entry.isLabel with
    | true =>
      have hnone : (projectLater edits entry).messages = [] := by
        rw [projectLater]
        rw [projectContextEntry_label hentry, ite_self]
      rw [essence, unlabelled_label hentry, hnone]
      rfl
    | false =>
      rw [essence, unlabelled_cons hentry, map_cons]
      have hcore : (projectLater edits (core entry)).messages =
          (projectLater edits entry).messages := by
        simp [projectLater]
      rw [← hcore]
      rfl

/-! ### Paths with the same essence -/

theorem essence_filter_isSystem :
    essence (entries.filter fun entry => !entry.isSystem) =
      (essence entries).filter fun entry => !entry.isSystem := by
  rw [essence, essence, unlabelled, unlabelled, filter_map, filter_filter, filter_filter]
  simp [Bool.and_comm]

theorem isCompaction_of_essence {entries others : List SessionEntry}
    (hessence : essence entries = essence others)
    (hnone : ∀ entry ∈ entries, entry.isCompaction = false) :
    ∀ entry ∈ others, entry.isCompaction = false := by
  intro entry hentry
  cases hlabel : entry.isLabel with
  | true =>
    rw [SessionEntry.isLabel] at hlabel
    split at hlabel
    · simp_all [SessionEntry.isCompaction, SessionEntry.compaction?]
    · cases hlabel
  | false =>
    have hmem : core entry ∈ essence entries := by
      rw [hessence]
      exact mem_map_of_mem (mem_filter.mpr ⟨hentry, by simp [hlabel]⟩)
    obtain ⟨other, hother, hcore⟩ := mem_map.mp hmem
    rw [← core_isCompaction, ← hcore, core_isCompaction]
    exact hnone other (mem_of_mem_filter hother)

theorem messages_of_no_compaction (hnone : ∀ entry ∈ path, entry.isCompaction = false) :
    (projectPath path).messages = shownLater (contextEdits path) path := by
  have hselect : selectEntries path = path := by
    rw [selectEntries, (lastCompaction_eq_none_iff path).mpr hnone]
  rw [projectPath]
  rw [hselect]
  cases path with
  | nil => rfl
  | cons first rest =>
    have hfirst : (projectFirst (contextEdits (first :: rest)) first).messages =
        (projectLater (contextEdits (first :: rest)) first).messages := by
      simp [projectFirst, projectLater, hnone first mem_cons_self]
    rw [projectEntries, flatMap_cons, hfirst, flatMap_map]
    rfl

variable {before : List SessionEntry}

variable {after : List SessionEntry}

theorem messages_of_compaction {compaction : SessionEntry} {fields : Compaction}
    (hfields : compaction.compaction? = some fields)
    (hafter : ∀ entry ∈ after, entry.isCompaction = false)
    (hbefore : ∀ entry ∈ before, entry.id ≠ compaction.id) :
    (projectPath (before ++ compaction :: after)).messages =
      (projectFirst (contextEdits (compaction ::
        (keptEntries fields.firstKeptEntryId before ++ after))) compaction).messages ++
      shownLater (contextEdits (compaction ::
        (keptEntries fields.firstKeptEntryId before ++ after)))
          (keptEntries fields.firstKeptEntryId before ++ after) := by
  rw [projectPath]
  rw [selectEntries_eq hfields hafter hbefore, projectEntries, flatMap_cons, flatMap_map]
  rfl

/-! ### The retained entries -/

theorem extract_append_singleton (path : List SessionEntry) (entry : SessionEntry) :
    extract (path ++ [entry]) = extractEntry (extract path) entry := by
  rw [extract, foldl_append]
  rfl

theorem extractEntry_label (hentry : entry.isLabel = true)
    (state : Extraction) : extractEntry state entry =
      { state with pendingLabelIds := state.pendingLabelIds ++ [entry.id] } :=
  if_pos hentry

theorem extractEntry_retained (hentry : entry.isLabel = false)
    (state : Extraction) : extractEntry state entry =
      { pathWithoutLabels := state.pathWithoutLabels ++ [rechain state.pathParentId
          (replacePending state.pendingLabelIds entry.id state.replacementByLabelId) entry]
        replacementByLabelId :=
          replacePending state.pendingLabelIds entry.id state.replacementByLabelId
        pendingLabelIds := []
        pathParentId := some entry.id } :=
  if_neg (by simp [hentry])

theorem withoutLabels_label (hentry : entry.isLabel = true)
    (path : List SessionEntry) : withoutLabels (path ++ [entry]) = withoutLabels path := by
  rw [withoutLabels, extract_append_singleton, extractEntry_label hentry]
  rfl

theorem withoutLabels_retained (hentry : entry.isLabel = false) (path : List SessionEntry) :
    withoutLabels (path ++ [entry]) = withoutLabels path ++
      [rechain (extract path).pathParentId (replacePending (extract path).pendingLabelIds
        entry.id (extract path).replacementByLabelId) entry] := by
  rw [withoutLabels, extract_append_singleton, extractEntry_retained hentry]
  rfl

theorem map_core_withoutLabels (path : List SessionEntry) :
    (withoutLabels path).map core = essence path := by
  induction path using reverseRecOn with
  | nil => rfl
  | append_singleton path entry ih =>
    rw [essence_append, ← ih]
    cases hentry : entry.isLabel with
    | true =>
      rw [withoutLabels_label hentry, essence, unlabelled_label hentry]
      simp [unlabelled]
    | false =>
      rw [withoutLabels_retained hentry, map_append, essence,
        unlabelled_cons hentry, map_singleton, core_rechain]
      rfl

theorem isLabel_withoutLabels : ∀ entry ∈ withoutLabels path, entry.isLabel = false := by
  intro entry hentry
  have hmem : core entry ∈ essence path := by
    rw [← map_core_withoutLabels]
    exact mem_map_of_mem hentry
  obtain ⟨other, hother, hcore⟩ := mem_map.mp hmem
  rw [← core_isLabel, ← hcore, core_isLabel]
  simpa using (mem_filter.mp hother).2

theorem essence_withoutLabels (path : List SessionEntry) :
    essence (withoutLabels path) = essence path := by
  have hall : unlabelled (withoutLabels path) = withoutLabels path := by
    rw [unlabelled, filter_eq_self]
    intro entry hentry
    simp [isLabel_withoutLabels entry hentry]
  rw [essence, hall, map_core_withoutLabels]

theorem map_id_map_core : (entries.map core).map SessionEntry.id = entries.map SessionEntry.id := by
  rw [map_map]
  congr 1
  funext entry
  exact core_id entry

theorem map_id_withoutLabels (path : List SessionEntry) :
    (withoutLabels path).map SessionEntry.id = (unlabelled path).map SessionEntry.id := by
  rw [← map_id_map_core, map_core_withoutLabels, essence, map_id_map_core]

/-- The retained entries are one chain, and the loop knows its end. -/
theorem linked_withoutLabels (path : List SessionEntry) :
    Linked none (withoutLabels path) ∧
      (extract path).pathParentId = lastId none (withoutLabels path) := by
  induction path using reverseRecOn with
  | nil => exact ⟨trivial, rfl⟩
  | append_singleton path entry ih =>
    cases hentry : entry.isLabel with
    | true =>
      rw [withoutLabels_label hentry, extract_append_singleton, extractEntry_label hentry]
      exact ih
    | false =>
      rw [withoutLabels_retained hentry, linked_append, extract_append_singleton,
        extractEntry_retained hentry, ← ih.2]
      refine ⟨⟨ih.1, ?_, trivial⟩, ?_⟩
      · rw [rechain]
        split <;> rfl
      rw [lastId, getLast?_append]
      simp only [getLast?_singleton, Option.some_or, Option.map_some]
      rw [← core_id (rechain _ _ _), core_rechain, core_id]

/-! ### Redirected boundaries -/

theorem get_replacePending (pendingLabelIds : List EntryId) (id key : EntryId)
    (replacements : List (EntryId × EntryId)) :
    get key (replacePending pendingLabelIds id replacements) =
      if key ∈ pendingLabelIds then some id else get key replacements := by
  induction pendingLabelIds generalizing replacements with
  | nil => simp [replacePending]
  | cons labelId rest ih =>
    have hcons : replacePending (labelId :: rest) id replacements =
        replacePending rest id (JsMap.set labelId id replacements) := rfl
    rw [hcons, ih, JsMap.get_set]
    by_cases hrest : key ∈ rest
    · simp [hrest]
    by_cases hkey : key = labelId
    · simp [hkey]
    · simp [hrest, hkey]

/-- A label is replaced by the first retained entry behind it, and waits for one as
long as there is none. -/
structure Redirects (path : List SessionEntry) (state : Extraction) : Prop where
  replaced : ∀ front label back, path = front ++ label :: back → label.isLabel = true →
    PropertyList.get label.id state.replacementByLabelId =
      (unlabelled back).head?.map SessionEntry.id
  pending : ∀ front label back, path = front ++ label :: back → label.isLabel = true →
    (label.id ∈ state.pendingLabelIds ↔ unlabelled back = [])
  keys : ∀ id, PropertyList.get id state.replacementByLabelId ≠ none ∨
    id ∈ state.pendingLabelIds → ∃ label ∈ path, label.isLabel = true ∧ label.id = id

/-- An item of an extended list is the last one, or stands before it. -/
theorem last_or_earlier {α : Type} {items front back : List α} {item last : α}
    (hsplit : items ++ [last] = front ++ item :: back) :
    (items = front ∧ last = item ∧ back = []) ∨
      ∃ more, back = more ++ [last] ∧ items = front ++ item :: more := by
  induction back using reverseRecOn with
  | nil =>
    have hparts := append_inj' hsplit rfl
    exact .inl ⟨hparts.1, by simpa using hparts.2, rfl⟩
  | append_singleton more final =>
    rw [← cons_append, ← append_assoc] at hsplit
    have hparts := append_inj' hsplit rfl
    exact .inr ⟨more, by simpa using hparts.2.symm, hparts.1⟩

variable {state : Extraction}

theorem redirects_label
    {entry : SessionEntry} (hstate : Redirects path state) (hentry : entry.isLabel = true)
    (hnew : ∀ other ∈ path, other.id ≠ entry.id) :
    Redirects (path ++ [entry]) (extractEntry state entry) := by
  have hunknown : ¬ (get entry.id state.replacementByLabelId ≠ none ∨
      entry.id ∈ state.pendingLabelIds) := by
    intro hknown
    obtain ⟨other, hother, -, hid⟩ := hstate.keys entry.id hknown
    exact hnew other hother hid
  rw [extractEntry_label hentry]
  constructor
  · intro front label back hsplit hlabel
    rcases last_or_earlier hsplit with ⟨rfl, rfl, rfl⟩ | ⟨more, rfl, rfl⟩
    · simpa [unlabelled] using fun hget => hunknown (.inl hget)
    rw [unlabelled_append, unlabelled_label hentry]
    simpa [unlabelled] using hstate.replaced front label more rfl hlabel
  · intro front label back hsplit hlabel
    rcases last_or_earlier hsplit with ⟨rfl, rfl, rfl⟩ | ⟨more, rfl, rfl⟩
    · simp [unlabelled]
    have hother : label.id ≠ entry.id := hnew label (by simp)
    rw [unlabelled_append, unlabelled_label hentry]
    simpa [unlabelled, hother] using hstate.pending front label more rfl hlabel
  intro id hid
  by_cases hown : id = entry.id
  · exact ⟨entry, by simp, hentry, hown.symm⟩
  obtain ⟨label, hmem, hlabel⟩ := hstate.keys id (by simpa [hown] using hid)
  exact ⟨label, mem_append_left _ hmem, hlabel⟩

theorem redirects_retained {entry : SessionEntry} (hstate : Redirects path state)
    (hentry : entry.isLabel = false) : Redirects (path ++ [entry]) (extractEntry state entry) := by
  rw [extractEntry_retained hentry]
  constructor
  · intro front label back hsplit hlabel
    rcases last_or_earlier hsplit with ⟨rfl, rfl, rfl⟩ | ⟨more, rfl, rfl⟩
    · rw [hentry] at hlabel
      cases hlabel
    have hpending := hstate.pending front label more rfl hlabel
    rw [get_replacePending, unlabelled_append, unlabelled_cons hentry]
    by_cases hmore : unlabelled more = []
    · rw [if_pos (hpending.mpr hmore), hmore]
      rfl
    rw [if_neg (fun hmem => hmore (hpending.mp hmem)),
      hstate.replaced front label more rfl hlabel, head?_append_of_ne_nil _ hmore]
  · intro front label back hsplit hlabel
    rcases last_or_earlier hsplit with ⟨rfl, rfl, rfl⟩ | ⟨more, rfl, rfl⟩
    · rw [hentry] at hlabel
      cases hlabel
    · simp [unlabelled_append, unlabelled_cons hentry]
  intro id hid
  rw [get_replacePending] at hid
  have hknown : get id state.replacementByLabelId ≠ none ∨
      id ∈ state.pendingLabelIds := by
    by_cases hpending : id ∈ state.pendingLabelIds
    · exact .inr hpending
    · exact .inl (by simpa [hpending] using hid)
  obtain ⟨label, hmem, hlabel⟩ := hstate.keys id hknown
  exact ⟨label, mem_append_left _ hmem, hlabel⟩

theorem redirects_extract (hdistinct : (path.map SessionEntry.id).Nodup) : Redirects path
    (extract path) := by
  induction path using reverseRecOn with
  | nil =>
    constructor
    · intro front label back hsplit
      simp at hsplit
    · intro front label back hsplit
      simp at hsplit
    intro id hid
    simp [extract] at hid
  | append_singleton path entry ih =>
    rw [map_append, nodup_append] at hdistinct
    rw [extract_append_singleton]
    cases hentry : entry.isLabel with
    | true =>
      refine redirects_label (ih hdistinct.1) hentry ?_
      intro other hother
      exact hdistinct.2.2 other.id (mem_map_of_mem hother) entry.id (by simp)
    | false => exact redirects_retained (ih hdistinct.1) hentry

theorem dropWhile_unknown {entries : List SessionEntry} {id : EntryId}
    (hunknown : ∀ entry ∈ entries, entry.id ≠ id) :
    entries.dropWhile (fun entry => entry.id ≠ id) = [] := by
  rw [dropWhile_eq_nil_iff]
  intro entry hentry
  simpa using hunknown entry hentry

/-- The boundary of a compaction behind the given entries, after the redirection. -/
def redirected (before : List SessionEntry) (compaction : SessionEntry)
    (firstKeptEntryId : EntryId) : EntryId :=
  (PropertyList.get firstKeptEntryId
    (extract (before ++ [compaction])).replacementByLabelId).getD firstKeptEntryId

variable {labels : List SessionEntry} {compaction : SessionEntry}

/-- What a redirected boundary keeps of the retained entries is what the boundary
kept. -/
theorem dropWhile_redirected (hdistinct : ((before ++ [compaction]).map SessionEntry.id).Nodup)
    (hretained : compaction.isLabel = false) (firstKeptEntryId : EntryId) :
    (unlabelled before).dropWhile
        (fun entry => entry.id ≠ redirected before compaction firstKeptEntryId) =
      unlabelled (before.dropWhile fun entry => entry.id ≠ firstKeptEntryId) := by
  have hredirects := redirects_extract hdistinct
  have hbefore : (before.map SessionEntry.id).Nodup := by
    rw [map_append] at hdistinct
    exact hdistinct.of_append_left
  have hother : ∀ entry ∈ before, entry.id ≠ compaction.id := by
    rw [map_append, nodup_append] at hdistinct
    intro entry hentry
    exact hdistinct.2.2 entry.id (mem_map_of_mem hentry) compaction.id (by simp)
  have hkept : ∀ front entry back, unlabelled before = front ++ entry :: back →
      (unlabelled before).dropWhile (fun other => other.id ≠ entry.id) = entry :: back := by
    intro front entry back hsplit
    rw [hsplit]
    apply dropWhile_id
    rw [← hsplit]
    exact hbefore.sublist (filter_sublist.map _)
  by_cases hknown : ∃ entry ∈ before, entry.id = firstKeptEntryId
  · obtain ⟨entry, hentry, rfl⟩ := hknown
    obtain ⟨front, back, rfl⟩ := append_of_mem hentry
    rw [dropWhile_id hbefore]
    cases hlabel : entry.isLabel with
    | true =>
      have hreplaced := hredirects.replaced front entry (back ++ [compaction])
        (by simp) hlabel
      rw [unlabelled_append, unlabelled_cons hretained] at hreplaced
      rw [unlabelled_label hlabel]
      cases hback : unlabelled back with
      | nil =>
        rw [hback] at hreplaced
        rw [redirected, hreplaced]
        apply dropWhile_unknown
        intro other hmem
        exact hother other (mem_of_mem_filter hmem)
      | cons next rest =>
        rw [hback] at hreplaced
        rw [redirected, hreplaced]
        apply hkept (unlabelled front)
        rw [unlabelled_append, unlabelled_label hlabel, hback]
    | false =>
      have hnone : get entry.id
          (extract (front ++ entry :: back ++ [compaction])).replacementByLabelId = none := by
        by_contra hfound
        obtain ⟨label, hmem, hlabelled, hid⟩ := hredirects.keys entry.id (.inl hfound)
        rw [inj_on_of_nodup_map hdistinct hmem (by simp) hid, hlabel] at hlabelled
        cases hlabelled
      rw [redirected, hnone, unlabelled_cons hlabel]
      apply hkept (unlabelled front)
      rw [unlabelled_append, unlabelled_cons hlabel]
  push Not at hknown
  have hnone : get firstKeptEntryId
      (extract (before ++ [compaction])).replacementByLabelId = none := by
    by_contra hfound
    obtain ⟨label, hmem, hlabelled, hid⟩ := hredirects.keys firstKeptEntryId (.inl hfound)
    rcases mem_append.mp hmem with hmem | hmem
    · exact hknown label hmem hid
    rw [mem_singleton.mp hmem, hretained] at hlabelled
    cases hlabelled
  rw [redirected, hnone, dropWhile_unknown hknown]
  apply dropWhile_unknown
  intro entry hmem
  exact hknown entry (mem_of_mem_filter hmem)

/-! ### The context of the new path -/

theorem dropWhile_map_core (id : EntryId) (entries : List SessionEntry) :
    (entries.map core).dropWhile (fun entry => entry.id ≠ id) =
      (entries.dropWhile fun entry => entry.id ≠ id).map core := by
  rw [dropWhile_map]
  simp [Function.comp_def]

theorem essence_keptEntries (hdistinct : ((before ++ [compaction]).map SessionEntry.id).Nodup)
    (hretained : compaction.isLabel = false) (firstKeptEntryId : EntryId) :
    essence (keptEntries (redirected before compaction firstKeptEntryId) (withoutLabels before)) =
      essence (keptEntries firstKeptEntryId before) := by
  have hkept := dropWhile_redirected hdistinct hretained firstKeptEntryId
  generalize redirected before compaction firstKeptEntryId = boundary at *
  have hunlabelled : unlabelled ((withoutLabels before).dropWhile
      fun entry => entry.id ≠ boundary) =
        (withoutLabels before).dropWhile fun entry => entry.id ≠ boundary := by
    rw [unlabelled, filter_eq_self]
    intro entry hentry
    simp [isLabel_withoutLabels entry ((dropWhile_sublist _).subset hentry)]
  rw [keptEntries, keptEntries, essence_filter_isSystem, essence_filter_isSystem]
  congr 1
  calc essence ((withoutLabels before).dropWhile fun entry => entry.id ≠ boundary)
      = ((withoutLabels before).map core).dropWhile fun entry => entry.id ≠ boundary := by
        rw [essence, hunlabelled, dropWhile_map_core]
    _ = ((unlabelled before).dropWhile fun entry => entry.id ≠ boundary).map core := by
        rw [map_core_withoutLabels, essence, dropWhile_map_core]
    _ = essence (before.dropWhile fun entry => entry.id ≠ firstKeptEntryId) := by
        rw [hkept]
        rfl

theorem withoutLabels_append :
    ∃ more, withoutLabels (front ++ back) = withoutLabels front ++ more ∧
      more.map core = essence back := by
  have hprefix : ∃ more, withoutLabels (front ++ back) = withoutLabels front ++ more := by
    induction back using reverseRecOn with
    | nil => exact ⟨[], by simp⟩
    | append_singleton back entry ih =>
      obtain ⟨more, hmore⟩ := ih
      rw [← append_assoc]
      cases hentry : entry.isLabel with
      | true => exact ⟨more, by rw [withoutLabels_label hentry, hmore]⟩
      | false =>
        rw [withoutLabels_retained hentry, hmore, append_assoc]
        exact ⟨_, rfl⟩
  obtain ⟨more, hmore⟩ := hprefix
  have hcores := map_core_withoutLabels (front ++ back)
  rw [hmore, map_append, map_core_withoutLabels, essence_append] at hcores
  exact ⟨more, hmore, append_cancel_left hcores⟩

variable {fields : Compaction}

/-- A compaction keeps its fields, with its boundary redirected. -/
theorem compaction?_rechain (hdistinct : ((before ++ [compaction]).map SessionEntry.id).Nodup)
    (hretained : compaction.isLabel = false)
    (hfields : compaction.compaction? = some fields) (parentId : Option EntryId) :
    (rechain parentId (extract (before ++ [compaction])).replacementByLabelId
      compaction).compaction? = some { fields with
        firstKeptEntryId := redirected before compaction fields.firstKeptEntryId } := by
  rw [rechain, body_of_compaction? hfields]
  dsimp only [SessionEntry.compaction?]
  split
  next hown =>
    have hnone : get compaction.id
        (extract (before ++ [compaction])).replacementByLabelId = none := by
      by_contra hfound
      obtain ⟨label, hmem, hlabelled, hid⟩ :=
        (redirects_extract hdistinct).keys compaction.id (.inl hfound)
      rw [inj_on_of_nodup_map hdistinct hmem (by simp) hid, hretained] at hlabelled
      cases hlabelled
    rw [redirected, hown, hnone]
    rfl
  · rfl

theorem isLabel_of_compaction?
    (hfields : entry.compaction? = some fields) : entry.isLabel = false := by
  rw [SessionEntry.isLabel, body_of_compaction? hfields]

theorem essence_labels (hlabels : ∀ entry ∈ labels, entry.isLabel = true) : essence labels =
    [] := by
  rw [essence, unlabelled, filter_eq_nil_iff.mpr]
  · rfl
  intro entry hentry
  simp [hlabels entry hentry]

theorem projectFirst_messages_core {other : SessionEntry} (hcore : core entry = core other) :
    (projectFirst edits entry).messages = (projectFirst edits other).messages := by
  have hid : entry.id = other.id := by rw [← core_id entry, hcore, core_id]
  rw [projectFirst, projectFirst]
  rw [← projectContextEntry_core entry, hcore, projectContextEntry_core, hid]

/-- Selections of the same essence behind the same compaction show the same. -/
theorem messages_congr {first second : SessionEntry} {kept other : List SessionEntry}
    (hcore : core first = core second) (hlabel : second.isLabel = false)
    (hessence : essence kept = essence other) :
    (projectFirst (contextEdits (first :: kept)) first).messages ++
        shownLater (contextEdits (first :: kept)) kept =
      (projectFirst (contextEdits (second :: other)) second).messages ++
        shownLater (contextEdits (second :: other)) other := by
  have hfirst : first.isLabel = false := by
    rw [← core_isLabel, hcore, core_isLabel, hlabel]
  have hedits : contextEdits (first :: kept) = contextEdits (second :: other) := by
    have hwhole : essence (first :: kept) = essence (second :: other) := by
      rw [essence, essence, unlabelled_cons hfirst, unlabelled_cons hlabel, map_cons,
        map_cons, hcore]
      exact congrArg _ hessence
    rw [← contextEdits_essence, hwhole, contextEdits_essence]
  rw [hedits, projectFirst_messages_core _ hcore, ← shownLater_essence _ kept, hessence,
    shownLater_essence]

theorem messages_branched_compaction {labels : List SessionEntry}
    {compaction : SessionEntry} {fields : Compaction}
    (hdistinct : ((before ++ compaction :: after).map SessionEntry.id).Nodup)
    (hlabels : ∀ entry ∈ labels, entry.isLabel = true)
    (hfields : compaction.compaction? = some fields)
    (hafter : ∀ entry ∈ after, entry.isCompaction = false) :
    (projectPath (withoutLabels (before ++ compaction :: after) ++ labels)).messages =
      (projectPath (before ++ compaction :: after)).messages := by
  have hretained := isLabel_of_compaction? hfields
  have hsplit : before ++ compaction :: after = before ++ [compaction] ++ after := by simp
  have hfront : ((before ++ [compaction]).map SessionEntry.id).Nodup := by
    rw [hsplit, map_append] at hdistinct
    exact hdistinct.of_append_left
  have hbefore : ∀ entry ∈ before, entry.id ≠ compaction.id := by
    rw [map_append, nodup_append] at hfront
    intro entry hentry
    exact hfront.2.2 entry.id (mem_map_of_mem hentry) compaction.id (by simp)
  -- The new path: the retained entries, the compaction, and what has the essence of the rest.
  obtain ⟨more, hmore, hcores⟩ := withoutLabels_append (before ++ [compaction]) after
  have hrest : essence (more ++ labels) = essence after := by
    rw [essence_append, essence_labels hlabels, append_nil, ← hcores, essence,
      unlabelled, filter_eq_self.mpr]
    intro entry hentry
    have hmem : entry ∈ withoutLabels (before ++ [compaction] ++ after) := by
      rw [hmore]
      exact mem_append_right _ hentry
    simp [isLabel_withoutLabels entry hmem]
  have hreplacements : replacePending (extract before).pendingLabelIds compaction.id
      (extract before).replacementByLabelId =
        (extract (before ++ [compaction])).replacementByLabelId := by
    rw [extract_append_singleton, extractEntry_retained hretained]
  have hrechained := compaction?_rechain hfront hretained hfields (extract before).pathParentId
  rw [withoutLabels_retained hretained, hreplacements, ← hsplit] at hmore
  have hcore := core_rechain (extract before).pathParentId
    (extract (before ++ [compaction])).replacementByLabelId compaction
  generalize rechain (extract before).pathParentId
    (extract (before ++ [compaction])).replacementByLabelId compaction = rechained at *
  have hnew : ∀ entry ∈ withoutLabels before, entry.id ≠ rechained.id := by
    intro entry hentry
    have hmem : entry.id ∈ (unlabelled before).map SessionEntry.id := by
      rw [← map_id_withoutLabels]
      exact mem_map_of_mem hentry
    obtain ⟨other, hother, hsame⟩ := mem_map.mp hmem
    rw [← hsame, ← core_id rechained, hcore, core_id]
    exact hbefore other (mem_of_mem_filter hother)
  rw [hmore, append_assoc, append_assoc, singleton_append,
    messages_of_compaction hrechained (isCompaction_of_essence hrest.symm hafter) hnew,
    messages_of_compaction hfields hafter hbefore]
  apply messages_congr hcore hretained
  rw [essence_append _ (more ++ labels), hrest,
    essence_keptEntries hfront hretained fields.firstKeptEntryId, essence_append]

theorem messages_branched (hdistinct : (path.map SessionEntry.id).Nodup)
    (hlabels : ∀ entry ∈ labels, entry.isLabel = true) :
    (projectPath (withoutLabels path ++ labels)).messages = (projectPath path).messages := by
  cases hlast : lastCompaction path with
  | none =>
    have hessence : essence (withoutLabels path ++ labels) = essence path := by
      rw [essence_append, essence_withoutLabels, essence_labels hlabels, append_nil]
    have hnone := (lastCompaction_eq_none_iff path).mp hlast
    rw [messages_of_no_compaction hnone,
      messages_of_no_compaction (isCompaction_of_essence hessence.symm hnone),
      ← shownLater_essence, ← contextEdits_essence, hessence, shownLater_essence,
      contextEdits_essence]
  | some found =>
    obtain ⟨compaction, fields⟩ := found
    obtain ⟨hfields, before, after, rfl, hafter⟩ := lastCompaction_eq_some hlast
    exact messages_branched_compaction hdistinct hlabels hfields hafter

theorem settings_branched (hlabels : ∀ entry ∈ labels, entry.isLabel = true) :
    (projectPath (withoutLabels path ++ labels)).settings = (projectPath path).settings := by
  rw [projectPath, projectPath, ← getSessionContextSettings_essence,
    ← getSessionContextSettings_essence path, essence_append, essence_withoutLabels,
    essence_labels hlabels, append_nil]

end Hummin.Session
