/-
Taking a path out of a session tree keeps its context, its parents and its labels.
-/
import Hummin.BranchedContext

namespace Hummin.Session

open List Option

/-! ### Trees -/

/-- Ids are distinct, parents exist, and no entry is above itself. -/
structure IsTree (entries : List SessionEntry) : Prop where
  distinct : (entries.map SessionEntry.id).Nodup
  rooted : ∃ depth : EntryId → Nat, ∀ entry ∈ entries, ∀ parent ∈ entry.parentId,
    (∃ other ∈ entries, other.id = parent) ∧ depth parent < depth entry.id

variable {entries : List SessionEntry}

variable {entry : SessionEntry}

/-- Every entry of a tree ends a path from a root. -/
theorem IsTree.exists_path (htree : IsTree entries) (hentry : entry ∈ entries) :
    ∃ path, Linked none path ∧ path.getLast? = some entry ∧
      (∀ other ∈ path, other ∈ entries) ∧ (path.map SessionEntry.id).Nodup := by
  obtain ⟨depth, hdepth⟩ := htree.rooted
  -- Along the path the depth grows, so that no id comes twice.
  suffices hpath : ∀ bound, ∀ entry ∈ entries, depth entry.id = bound →
      ∃ path, Linked none path ∧ path.getLast? = some entry ∧
        (∀ other ∈ path, other ∈ entries ∧ depth other.id ≤ bound) ∧
        (path.map SessionEntry.id).Nodup by
    obtain ⟨path, hlinked, hlast, hmem, hdistinct⟩ := hpath _ entry hentry rfl
    exact ⟨path, hlinked, hlast, fun other hother => (hmem other hother).1, hdistinct⟩
  intro bound
  induction bound using Nat.strong_induction_on with
  | h bound ih =>
    intro entry hentry hbound
    cases hparent : entry.parentId with
    | none =>
      refine ⟨[entry], ⟨hparent, trivial⟩, rfl, ?_, by simp⟩
      intro other hother
      rw [mem_singleton.mp hother]
      exact ⟨hentry, hbound.le⟩
    | some parentId =>
      obtain ⟨⟨parent, hmem, rfl⟩, hless⟩ := hdepth entry hentry parentId hparent
      obtain ⟨path, hlinked, hlast, hpath, hdistinct⟩ :=
        ih (depth parent.id) (hbound ▸ hless) parent hmem rfl
      refine ⟨path ++ [entry], ?_, by simp, ?_, ?_⟩
      · rw [linked_append, lastId, hlast]
        exact ⟨hlinked, hparent, trivial⟩
      · intro other hother
        rcases mem_append.mp hother with hother | hother
        · have hother := hpath other hother
          exact ⟨hother.1, by omega⟩
        rw [mem_singleton.mp hother]
        exact ⟨hentry, hbound.le⟩
      rw [map_append, nodup_append]
      refine ⟨hdistinct, by simp, ?_⟩
      rintro id hid other hother rfl
      obtain ⟨above, habove, rfl⟩ := mem_map.mp hid
      have hle := (hpath above habove).2
      rw [map_singleton, mem_singleton] at hother
      rw [hother] at hle
      omega

/-- The walk from an entry of a tree ends. -/
theorem IsTree.climb_eq (htree : IsTree entries) (hentry : entry ∈ entries) :
    ∃ path, climb (buildEntryIndex entries) (climbFuel (buildEntryIndex entries))
        (some entry) = some path ∧ path ≠ [] ∧ (path.map SessionEntry.id).Nodup ∧
      ∀ other ∈ path, other ∈ entries := by
  obtain ⟨path, hlinked, hlast, hmem, hdistinct⟩ := htree.exists_path hentry
  refine ⟨path, ?_, ?_, hdistinct, hmem⟩
  · rw [buildEntryIndex_eq htree.distinct, ← hlast]
    apply climb_linked hlinked rfl
    · exact fun other hother => get_entryPairs htree.distinct (hmem other hother)
    have hsubset : path.map SessionEntry.id ⊆ entries.map SessionEntry.id := by
      intro id hid
      obtain ⟨other, hother, rfl⟩ := mem_map.mp hid
      exact mem_map_of_mem (hmem other hother)
    have hlength := (hdistinct.subperm hsubset).length_le
    rw [length_map, length_map] at hlength
    rw [climbFuel, length_map]
    omega
  · rintro rfl
    cases hlast

/-! ### Built indices -/

theorem byId_setLabel (manager : Manager) (targetId : EntryId) (label : Option JsString)
    (timestamp : Instant) :
    (manager.setLabel targetId label timestamp).byId = manager.byId ∧
      (manager.setLabel targetId label timestamp).leafId = manager.leafId ∧
      (manager.setLabel targetId label timestamp).fileEntries = manager.fileEntries := by
  rw [Manager.setLabel]
  split <;> exact ⟨rfl, rfl, rfl⟩

theorem indexEntry_entry (manager : Manager) (entry : SessionEntry) :
    (indexEntry manager entry).byId = JsMap.set entry.id entry manager.byId ∧
      (indexEntry manager entry).leafId = some entry.id ∧
      (indexEntry manager entry).fileEntries = manager.fileEntries := by
  rw [indexEntry]
  split
  · exact byId_setLabel _ _ _ _
  · exact ⟨rfl, rfl, rfl⟩

theorem foldl_indexEntry (entries : List SessionEntry) (manager : Manager) :
    (entries.foldl indexEntry manager).byId =
        (entries.map fun entry => (entry.id, entry)).foldl
          (fun map pair => JsMap.set pair.1 pair.2 map) manager.byId ∧
      (entries.foldl indexEntry manager).leafId = lastId manager.leafId entries ∧
      (entries.foldl indexEntry manager).fileEntries = manager.fileEntries := by
  induction entries generalizing manager with
  | nil => exact ⟨rfl, by simp [lastId], rfl⟩
  | cons entry rest ih =>
    obtain ⟨hbyId, hleaf, hfile⟩ := ih (indexEntry manager entry)
    obtain ⟨hset, hown, hsame⟩ := indexEntry_entry manager entry
    rw [foldl_cons, map_cons, foldl_cons, hbyId, hleaf, hfile, hset, hown, hsame]
    refine ⟨rfl, ?_, rfl⟩
    cases rest with
    | nil => rfl
    | cons next more => simp [lastId, getLast?_cons]

theorem getEntries_buildIndex (manager : Manager) :
    (buildIndex manager).getEntries = manager.getEntries := by
  rw [Manager.getEntries, buildIndex, (foldl_indexEntry _ _).2.2]
  rfl

theorem byId_buildIndex (manager : Manager) :
    (buildIndex manager).byId = buildEntryIndex manager.getEntries :=
  (foldl_indexEntry _ _).1

theorem leafId_buildIndex (manager : Manager) :
    (buildIndex manager).leafId = lastId none manager.getEntries :=
  (foldl_indexEntry _ _).2.1

/-- The indices are those of the entries; the leaf may be any. -/
structure Manager.Indexed (manager : Manager) : Prop where
  byId : manager.byId = (buildIndex manager).byId
  labelsById : manager.labelsById = (buildIndex manager).labelsById
  labelTimestampsById :
    manager.labelTimestampsById = (buildIndex manager).labelTimestampsById

/-- A map of labels: one label a target, none of them empty. -/
def IsLabelMap (labels : List (EntryId × JsString)) : Prop :=
  (PropertyList.keys labels).Nodup ∧ ∀ pair ∈ labels, pair.2.isEmpty = false

theorem isLabelMap_setLabel {manager : Manager} (hlabels : IsLabelMap manager.labelsById)
    (targetId : EntryId) (label : Option JsString) (timestamp : Instant) :
    IsLabelMap (manager.setLabel targetId label timestamp).labelsById := by
  rw [Manager.setLabel]
  split
  next text htext =>
    refine ⟨JsMap.keys_set_nodup _ _ hlabels.1, ?_⟩
    intro pair hpair
    rcases JsMap.mem_set hlabels.1 hpair with rfl | hpair
    · simpa using (filter_eq_some_iff.mp htext).2
    · exact hlabels.2 pair hpair
  · refine ⟨PropertyList.keys_erase_nodup _ hlabels.1, ?_⟩
    intro pair hpair
    exact hlabels.2 pair (mem_of_mem_filter hpair)

theorem isLabelMap_buildIndex (manager : Manager) : IsLabelMap (buildIndex manager).labelsById := by
  have hfold : ∀ (entries : List SessionEntry) (manager : Manager),
      IsLabelMap manager.labelsById →
        IsLabelMap (entries.foldl indexEntry manager).labelsById := by
    intro entries
    induction entries with
    | nil => exact fun manager hlabels => hlabels
    | cons entry rest ih =>
      intro manager hlabels
      apply ih
      rw [indexEntry]
      split
      · apply isLabelMap_setLabel
        exact hlabels
      · exact hlabels
  apply hfold
  exact ⟨by simp [PropertyList.keys], by simp⟩

/-! ### Label entries -/

/-- A whole UUID is longer than a short id, and never drawn twice. -/
structure FreshUuids (uuids : Nat → Nat → JsString) (taken : List EntryId) : Prop where
  long : ∀ index, idLength < (uuids index idAttempts).length
  distinct : ∀ index other, uuids index idAttempts = uuids other idAttempts → index = other
  unused : ∀ index, uuids index idAttempts ∉ taken

/-- A generated id is a short one or the whole UUID that was drawn last. -/
theorem generateId_short_or_whole (taken : EntryId → Bool) (uuids : Nat → JsString) :
    (generateId taken uuids).length ≤ idLength ∨ generateId taken uuids = uuids idAttempts := by
  rw [generateId]
  split
  · left
    rw [length_take]
    exact Nat.min_le_left _ _
  · exact .inr rfl

variable {uuids : Nat → Nat → JsString} {taken : List EntryId}

theorem FreshUuids.next (hfresh : FreshUuids uuids taken) :
    FreshUuids (fun index => uuids (index + 1))
      (taken ++ [generateId (fun id => taken.contains id) (uuids 0)]) := by
  constructor
  · exact fun index => hfresh.long (index + 1)
  · intro index other hsame
    have hindex := hfresh.distinct _ _ hsame
    omega
  intro index hmem
  rcases mem_append.mp hmem with hmem | hmem
  · exact hfresh.unused (index + 1) hmem
  rw [mem_singleton] at hmem
  rcases generateId_short_or_whole (fun id => taken.contains id) (uuids 0) with
    hshort | hwhole
  · rw [← hmem] at hshort
    have hlong := hfresh.long (index + 1)
    omega
  have hindex := hfresh.distinct _ _ (hmem.trans hwhole)
  omega

theorem FreshUuids.generateId_not_mem (hfresh : FreshUuids uuids taken) :
    generateId (fun id => taken.contains id) (uuids 0) ∉ taken := by
  have hnot := @generateId_not_taken (fun id => taken.contains id) (uuids 0)
    (by simpa using hfresh.unused 0)
  simpa using hnot

theorem labelEntries_isLabel (labels : List LabelToWrite) (taken : List EntryId)
    (parentId : Option EntryId) (uuids : Nat → Nat → JsString) :
    ∀ entry ∈ labelEntries taken parentId uuids labels, entry.isLabel = true := by
  induction labels generalizing taken parentId uuids with
  | nil =>
    exact nofun
  | cons label rest ih =>
    intro entry hentry
    rw [labelEntries] at hentry
    rcases mem_cons.mp hentry with rfl | hentry
    · rfl
    · exact ih _ _ _ entry hentry

theorem linked_labelEntries (labels : List LabelToWrite) (taken : List EntryId)
    (parentId : Option EntryId) (uuids : Nat → Nat → JsString) :
    Linked parentId (labelEntries taken parentId uuids labels) := by
  induction labels generalizing taken parentId uuids with
  | nil => trivial
  | cons label rest ih => exact ⟨rfl, ih _ _ _⟩

variable {labels : List LabelToWrite}

/-- The ids of the label entries are new and distinct. -/
theorem distinct_labelEntries {taken : List EntryId}
    {uuids : Nat → Nat → JsString} (hfresh : FreshUuids uuids taken) (hdistinct : taken.Nodup)
    (parentId : Option EntryId) :
    (taken ++ (labelEntries taken parentId uuids labels).map SessionEntry.id).Nodup := by
  induction labels generalizing taken parentId uuids with
  | nil => simpa [labelEntries] using hdistinct
  | cons label rest ih =>
    have hnew : (taken ++ [generateId (fun id => taken.contains id) (uuids 0)]).Nodup := by
      rw [← concat_eq_append]
      exact hdistinct.concat hfresh.generateId_not_mem
    have hrest := ih hfresh.next hnew
      (some (generateId (fun id => taken.contains id) (uuids 0)))
    rw [append_assoc] at hrest
    exact hrest

/-- Label entries set their labels. -/
theorem labelsById_labelEntries
    (hlabels : ∀ label ∈ labels, label.label.isEmpty = false) (taken : List EntryId)
    (parentId : Option EntryId) (uuids : Nat → Nat → JsString) (manager : Manager) :
    ((labelEntries taken parentId uuids labels).foldl indexEntry manager).labelsById =
      (labels.map fun label => (label.targetId, label.label)).foldl
        (fun map pair => JsMap.set pair.1 pair.2 map) manager.labelsById := by
  induction labels generalizing taken parentId uuids manager with
  | nil => rfl
  | cons label rest ih =>
    have hkept : (some label.label).filter (fun text => !text.isEmpty) =
        some label.label := by
      simp [filter, hlabels label mem_cons_self]
    rw [labelEntries, foldl_cons, map_cons, foldl_cons,
      ih fun other hother => hlabels other (mem_cons_of_mem _ hother)]
    simp only [indexEntry, Manager.setLabel, hkept]

theorem labelsById_unlabelled (hentries : ∀ entry ∈ entries, entry.isLabel = false)
    (manager : Manager) : (entries.foldl indexEntry manager).labelsById = manager.labelsById := by
  induction entries generalizing manager with
  | nil => rfl
  | cons entry rest ih =>
    rw [foldl_cons, ih fun other hother => hentries other (mem_cons_of_mem _ hother),
      indexEntry]
    split
    next hbody =>
      have hlabel := hentries entry mem_cons_self
      simp [SessionEntry.isLabel, hbody] at hlabel
    · rfl

/-! ### The new session -/

variable {environment : BranchEnvironment} {manager : Manager} {path : List SessionEntry}

theorem FreshUuids.mono {fewer : List EntryId}
    (hfresh : FreshUuids uuids taken) (hfewer : fewer ⊆ taken) : FreshUuids uuids fewer :=
  ⟨hfresh.long, hfresh.distinct, fun index hmem => hfresh.unused index (hfewer hmem)⟩

theorem distinct_branchedEntries (hdistinct : (path.map SessionEntry.id).Nodup)
    (hfresh : FreshUuids environment.uuids (path.map SessionEntry.id)) :
    ((branchedEntries environment manager path).map SessionEntry.id).Nodup := by
  have hsublist : List.Sublist ((withoutLabels path).map SessionEntry.id)
      (path.map SessionEntry.id) := by
    rw [map_id_withoutLabels]
    exact filter_sublist.map _
  rw [branchedEntries, map_append]
  exact distinct_labelEntries (hfresh.mono hsublist.subset) (hdistinct.sublist hsublist) _

theorem linked_branchedEntries : Linked none (branchedEntries environment manager path) := by
  have hlast : lastId none (withoutLabels path) =
      (withoutLabels path).getLast?.map SessionEntry.id := by
    rw [lastId, or_none]
  rw [branchedEntries, linked_append, hlast]
  exact ⟨(linked_withoutLabels path).1, linked_labelEntries _ _ _ _⟩

theorem buildSessionPath_linked (hdistinct : (entries.map SessionEntry.id).Nodup)
    (hlinked : Linked none entries) :
    buildSessionPath entries (some (lastId none entries))
      (some (buildEntryIndex entries)) = some entries := by
  rw [lastId, or_none, buildEntryIndex_eq hdistinct]
  cases hlast : entries.getLast? with
  | none =>
    rw [getLast?_eq_none_iff.mp hlast]
    rfl
  | some last =>
    have hmem := mem_of_getLast? hlast
    simp only [buildSessionPath, map_some, getD_some, get_entryPairs hdistinct hmem, some_or]
    rw [← hlast]
    apply climb_linked hlinked rfl
    · exact fun other hother => get_entryPairs hdistinct hother
    rw [climbFuel, length_map]
    omega

theorem parent_of_linked {parent : Option EntryId} (hlinked : Linked parent entries) :
    ∀ entry ∈ entries, ∀ id ∈ entry.parentId,
      parent = some id ∨ ∃ other ∈ entries, other.id = id := by
  induction entries generalizing parent with
  | nil => simp
  | cons first rest ih =>
    intro entry hentry id hid
    rcases mem_cons.mp hentry with rfl | hentry
    · exact .inl (hlinked.1 ▸ hid)
    rcases ih hlinked.2 entry hentry id hid with hfirst | ⟨other, hother, hsame⟩
    · exact .inr ⟨first, mem_cons_self, some.inj hfirst⟩
    · exact .inr ⟨other, mem_cons_of_mem _ hother, hsame⟩

/-- The labels of the new session are those of the retained entries. -/
theorem labelsById_branched (hlabels : IsLabelMap manager.labelsById) {replaced : Manager}
    (hentries : replaced.getEntries = branchedEntries environment manager path) :
    (buildIndex replaced).labelsById = manager.labelsById.filter fun pair =>
      ((withoutLabels path).map SessionEntry.id).contains pair.1 := by
  have hpairs : ((labelsToWrite manager ((withoutLabels path).map SessionEntry.id)).map
      fun label => (label.targetId, label.label)) = manager.labelsById.filter fun pair =>
        ((withoutLabels path).map SessionEntry.id).contains pair.1 := by
    rw [labelsToWrite, List.map_map]
    exact map_id _
  rw [buildIndex, hentries, branchedEntries, foldl_append, labelsById_labelEntries,
    labelsById_unlabelled isLabel_withoutLabels, hpairs]
  · apply JsMap.ofPairs_of_nodup
    exact hlabels.1.sublist (filter_sublist.map _)
  intro label hlabel
  obtain ⟨pair, hpair, rfl⟩ := mem_map.mp hlabel
  exact hlabels.2 pair (mem_of_mem_filter hpair)

variable {leafId : EntryId}

/-- The state after branching has the entries of the path and their indices, whether
or not the file took the write. -/
theorem createBranchedSession_state
    (hbranch : manager.getBranch (some leafId) = some path) (hne : path ≠ []) :
    ∃ replaced : Manager, replaced.getEntries = branchedEntries environment manager path ∧
      (createBranchedSession environment manager leafId).2.fileEntries =
        (buildIndex replaced).fileEntries ∧
      (createBranchedSession environment manager leafId).2.byId =
        (buildIndex replaced).byId ∧
      (createBranchedSession environment manager leafId).2.leafId =
        (buildIndex replaced).leafId ∧
      (createBranchedSession environment manager leafId).2.labelsById =
        (buildIndex replaced).labelsById := by
  have hgetEntries : ∀ (header : SessionHeader) (other : Manager),
      other.fileEntries = .session header ::
        (branchedEntries environment manager path).map FileEntry.entry →
      other.getEntries = branchedEntries environment manager path := by
    intro header other hfile
    rw [Manager.getEntries, hfile, filterMap_cons, filterMap_map]
    exact filterMap_some
  obtain ⟨first, rest, rfl⟩ := exists_cons_of_ne_nil hne
  rw [createBranchedSession, hbranch]
  dsimp only
  split
  · split
    · exact ⟨_, hgetEntries _ _ rfl, rfl, rfl, rfl, rfl⟩
    · exact ⟨_, hgetEntries _ _ rfl, rfl, rfl, rfl, rfl⟩
  · exact ⟨_, hgetEntries _ _ rfl, rfl, rfl, rfl, rfl⟩

theorem createBranchedSession_ok
    (hbranch : manager.getBranch (some leafId) = some path) (hne : path ≠ [])
    (hwrites : environment.writes = true) :
    ∃ file, (createBranchedSession environment manager leafId).1 = .ok file := by
  obtain ⟨first, rest, rfl⟩ := exists_cons_of_ne_nil hne
  rw [createBranchedSession, hbranch]
  dsimp only
  split
  · exact ⟨_, rfl⟩
  · exact ⟨_, rfl⟩

/-- A branched session has the context of the entry that it ends in, keeps the
parents of its entries and their labels. -/
theorem createBranchedSession_preserves (hindexed : manager.Indexed)
    (htree : IsTree manager.getEntries) {entry : SessionEntry} (hentry : entry ∈ manager.getEntries)
    (hfresh : FreshUuids environment.uuids (manager.getEntries.map SessionEntry.id)) :
    (environment.writes = true →
      ∃ file, (createBranchedSession environment manager entry.id).1 = .ok file) ∧
    ∃ path context, manager.getBranch (some entry.id) = some path ∧
      buildSessionContext manager.getEntries (some (some entry.id)) (some manager.byId) =
        some context ∧
      (createBranchedSession environment manager entry.id).2.buildSessionContext =
        some context ∧
      (∀ kept ∈ (createBranchedSession environment manager entry.id).2.getEntries,
        ∀ parent ∈ kept.parentId, ∃ other ∈
          (createBranchedSession environment manager entry.id).2.getEntries,
            other.id = parent) ∧
      ∀ retained ∈ path, retained.isLabel = false →
        (∃ kept ∈ (createBranchedSession environment manager entry.id).2.getEntries,
          kept.id = retained.id) ∧
        PropertyList.get retained.id
            (createBranchedSession environment manager entry.id).2.labelsById =
          PropertyList.get retained.id manager.labelsById := by
  have hbyId : manager.byId = buildEntryIndex manager.getEntries := by
    rw [hindexed.byId, byId_buildIndex]
  have hget : PropertyList.get entry.id manager.byId = some entry := by
    rw [hbyId, buildEntryIndex_eq htree.distinct, get_entryPairs htree.distinct hentry]
  obtain ⟨path, hclimb, hne, hdistinct, hmem⟩ := htree.climb_eq hentry
  have hbranch : manager.getBranch (some entry.id) = some path := by
    rw [Manager.getBranch, some_or, bind_some, hget, hbyId, hclimb]
  have hlabelMap : IsLabelMap manager.labelsById := by
    rw [hindexed.labelsById]
    exact isLabelMap_buildIndex manager
  have hpathFresh : FreshUuids environment.uuids (path.map SessionEntry.id) := by
    apply hfresh.mono
    intro id hid
    obtain ⟨other, hother, rfl⟩ := List.mem_map.mp hid
    exact List.mem_map_of_mem (hmem other hother)
  obtain ⟨replaced, hentries, hfile, hindex, hleaf, hlabels⟩ :=
    @createBranchedSession_state environment manager path entry.id hbranch hne
  have hnewEntries : (createBranchedSession environment manager entry.id).2.getEntries =
      branchedEntries environment manager path := by
    rw [Manager.getEntries, hfile, ← hentries, ← getEntries_buildIndex]
    rfl
  refine ⟨createBranchedSession_ok hbranch hne, path,
    ⟨(projectPath path).messages, (projectPath path).settings⟩, hbranch, ?_, ?_, ?_, ?_⟩
  · simp only [buildSessionContext, buildSessionProjection, buildSessionPath,
      getD_some, hget, some_or]
    rw [hbyId, hclimb]
    rfl
  · have hnewPath : buildSessionPath (branchedEntries environment manager path)
        (some (lastId none (branchedEntries environment manager path)))
        (some (buildEntryIndex (branchedEntries environment manager path))) =
          some (branchedEntries environment manager path) :=
      buildSessionPath_linked (distinct_branchedEntries hdistinct hpathFresh)
        linked_branchedEntries
    rw [Manager.buildSessionContext, hnewEntries, hleaf, hindex, byId_buildIndex,
      leafId_buildIndex, hentries, buildSessionContext, buildSessionProjection, hnewPath,
      map_some, map_some, branchedEntries,
      messages_branched hdistinct (labelEntries_isLabel _ _ _ _),
      settings_branched (labelEntries_isLabel _ _ _ _)]
  · rw [hnewEntries]
    intro kept hkept parent hparent
    rcases parent_of_linked linked_branchedEntries kept hkept parent hparent with
      hnone | hother
    · cases hnone
    · exact hother
  · intro retained hretained hlabel
    have hid : retained.id ∈ (withoutLabels path).map SessionEntry.id := by
      rw [map_id_withoutLabels]
      exact List.mem_map_of_mem (mem_filter.mpr ⟨hretained, by simp [hlabel]⟩)
    constructor
    · obtain ⟨kept, hkept, hsame⟩ := List.mem_map.mp hid
      rw [hnewEntries]
      exact ⟨kept, mem_append_left _ hkept, hsame⟩
    · rw [hlabels, labelsById_branched hlabelMap hentries]
      exact PropertyList.get_filter (by simpa using hid) _

/-- A session with a label that its compaction keeps from, and a second branch. -/
def labelledSession : Manager :=
  buildIndex
    { newSession (js ['s']) (js ['f']) 0 with
      fileEntries := .session ⟨js ['s'], 0, none⟩ :: List.map FileEntry.entry
        [⟨js ['a'], none, 0, .message (.user none 0)⟩,
          ⟨js ['b'], some (js ['a']), 1, .label (js ['a']) (some (js ['l']))⟩,
          ⟨js ['c'], some (js ['b']), 2, .message (.user (some (.text (js ['q']))) 2)⟩,
          ⟨js ['d'], some (js ['c']), 3,
            .compaction ⟨js ['x'], js ['b'], 9, none, none, none, none⟩⟩,
          ⟨js ['e'], some (js ['a']), 4, .message (.user none 4)⟩] }

def growingUuids : BranchEnvironment where
  writes := true
  uuids index _ := List.replicate (index + 9) 122
  newSessionId := js ['n']
  newSessionFile := js ['g']
  now := 5

theorem createBranchedSession_preserves_labelledSession :
    ∃ context, buildSessionContext labelledSession.getEntries (some (some (js ['d'])))
        (some labelledSession.byId) = some context ∧
      (createBranchedSession growingUuids labelledSession
        (js ['d'])).2.buildSessionContext = some context := by
  have htree : IsTree labelledSession.getEntries := by
    refine ⟨by decide, fun id => (id.headD 0).toNat, ?_⟩
    decide
  have hfresh : FreshUuids growingUuids.uuids
      (labelledSession.getEntries.map SessionEntry.id) := by
    constructor
    · intro index
      simp [growingUuids, idLength]
    · intro index other hsame
      simpa [growingUuids] using congrArg List.length hsame
    intro index hmem
    have hlength : ∀ id ∈ labelledSession.getEntries.map SessionEntry.id,
        id.length ≤ 8 := by decide
    simpa [growingUuids] using hlength _ hmem
  have hentry : (⟨js ['d'], some (js ['c']), 3,
      .compaction ⟨js ['x'], js ['b'], 9, none, none, none, none⟩⟩ : SessionEntry) ∈
        labelledSession.getEntries := by decide
  obtain ⟨-, path, context, -, hbefore, hafter, -⟩ :=
    createBranchedSession_preserves ⟨rfl, rfl, rfl⟩ htree hentry hfresh
  exact ⟨context, hbefore, hafter⟩

end Hummin.Session
