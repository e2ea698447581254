/-
The projection of a session: the path from its leaf to the root, the entries that
its newest compaction selects, and the messages they contribute.
-/
import Hummin.SessionEntry

namespace Hummin.Session

open List Option PropertyList JsMap

/-! ### Paths -/

/-- Entries by id, a `Map`. -/
abbrev EntryIndex := List (EntryId × SessionEntry)

def buildEntryIndex (entries : List SessionEntry) : EntryIndex :=
  JsMap.ofPairs (entries.map fun entry => (entry.id, entry))

/-- The walk from an entry to its root, root first; `none` when the fuel does not
reach. -/
def climb (index : EntryIndex) : Nat → Option SessionEntry → Option (List SessionEntry)
  | _, none => some []
  | 0, some _ => none
  | fuel + 1, some entry =>
    (climb index fuel (entry.parentId.bind fun id => PropertyList.get id index)).map
      fun above => above ++ [entry]

/-- Every walk that ends visits a key of the index at most once. -/
def climbFuel (index : EntryIndex) : Nat :=
  index.length + 1

/-- The path to a leaf: `some none` is the place before all entries, `none` and an
unknown id are the last entry.  `none` stands for a walk that does not end. -/
def buildSessionPath (entries : List SessionEntry) (leafId : Option (Option EntryId))
    (byId : Option EntryIndex) : Option (List SessionEntry) :=
  let index := byId.getD (buildEntryIndex entries)
  match leafId with
  | some none => some []
  | some (some id) => climb index (climbFuel index)
      ((PropertyList.get id index).or entries.getLast?)
  | none => climb index (climbFuel index) entries.getLast?

/-! ### Context entries -/

/-- The provider and the id of a model. -/
structure ModelRef where
  provider : JsString
  modelId : JsString
deriving DecidableEq

structure ContextSettings where
  thinkingLevel : JsString
  model : Option ModelRef
deriving DecidableEq

def applySettings (settings : ContextSettings) (entry : SessionEntry) :
    ContextSettings :=
  match entry.body with
  | .thinkingLevelChange thinkingLevel => { settings with thinkingLevel }
  | .modelChange provider modelId => { settings with model := some ⟨provider, modelId⟩ }
  | .message (.assistant _ provider model _ _ _) =>
    { settings with model := some ⟨provider, model⟩ }
  | _ => settings

def getSessionContextSettings (path : List SessionEntry) : ContextSettings :=
  path.foldl applySettings ⟨js ['o', 'f', 'f'], none⟩

/-- The last compaction entry of a path. -/
def lastCompaction (path : List SessionEntry) : Option (SessionEntry × Compaction) :=
  path.foldl (fun found entry =>
    match entry.compaction? with
    | some fields => some (entry, fields)
    | none => found) none

/-- The entries from the first kept one on, without system messages. -/
def keptEntries (firstKeptEntryId : EntryId) (entries : List SessionEntry) :
    List SessionEntry :=
  (entries.dropWhile fun entry => entry.id ≠ firstKeptEntryId).filter fun entry =>
    !entry.isSystem

/-- The entries that a path selects: behind the latest compaction those it keeps
and those after it. -/
def selectEntries (path : List SessionEntry) : List SessionEntry :=
  match lastCompaction path with
  | none => path
  | some (compaction, fields) =>
    let index := path.findIdx fun entry => entry.id = compaction.id
    compaction :: (keptEntries fields.firstKeptEntryId (path.take index) ++ path.drop (index + 1))

def buildContextEntries (entries : List SessionEntry)
    (leafId : Option (Option EntryId)) (byId : Option EntryIndex) :
    Option (List SessionEntry) :=
  (buildSessionPath entries leafId byId).map selectEntries

/-! ### Projection -/

structure ProjectedEntry where
  sourceEntry : SessionEntry
  messages : List AgentMessage
deriving DecidableEq

structure Projection where
  entries : List ProjectedEntry
  messages : List AgentMessage
  settings : ContextSettings
deriving DecidableEq

/-- The replacements by target; the latest edit of a target counts. -/
def contextEdits (entries : List SessionEntry) : List (EntryId × Option Content) :=
  entries.foldl (fun edits entry =>
    match entry.edit? with
    | some (targetId, replacement) => JsMap.set targetId replacement edits
    | none => edits) []

/-- An entry that is not the first one; an older compaction contributes nothing. -/
def projectLater (edits : List (EntryId × Option Content)) (entry : SessionEntry) :
    ProjectedEntry where
  sourceEntry := entry
  messages :=
    if entry.isCompaction then []
    else projectContextEntry entry (PropertyList.get entry.id edits)

def projectFirst (edits : List (EntryId × Option Content)) (entry : SessionEntry) :
    ProjectedEntry where
  sourceEntry := entry
  messages := projectContextEntry entry (PropertyList.get entry.id edits)

def projectEntries (entries : List SessionEntry) : List ProjectedEntry :=
  match entries with
  | [] => []
  | first :: rest =>
    projectFirst (contextEdits entries) first ::
      rest.map (projectLater (contextEdits entries))

/-- The projection of a path. -/
def projectPath (path : List SessionEntry) : Projection where
  entries := projectEntries (selectEntries path)
  messages := (projectEntries (selectEntries path)).flatMap ProjectedEntry.messages
  settings := getSessionContextSettings path

def buildSessionProjection (entries : List SessionEntry)
    (leafId : Option (Option EntryId)) (byId : Option EntryIndex) :
    Option Projection :=
  (buildSessionPath entries leafId byId).map projectPath

/-- What is sent to the model. -/
structure SessionContext where
  messages : List AgentMessage
  settings : ContextSettings
deriving DecidableEq

def buildSessionContext (entries : List SessionEntry)
    (leafId : Option (Option EntryId)) (byId : Option EntryIndex) :
    Option SessionContext :=
  (buildSessionProjection entries leafId byId).map fun projection =>
    ⟨projection.messages, projection.settings⟩

/-! ### The last compaction -/

variable (front back : List SessionEntry)

theorem lastCompaction_append :
    lastCompaction (front ++ back) = (lastCompaction back).or (lastCompaction front) := by
  have hfold : ∀ (entries : List SessionEntry) (found : Option (SessionEntry × Compaction)),
      entries.foldl (fun found entry =>
        match entry.compaction? with
        | some fields => some (entry, fields)
        | none => found) found = (lastCompaction entries).or found := by
    intro entries
    induction entries with
    | nil => intro found; rfl
    | cons entry rest ih =>
      intro found
      rw [foldl_cons, lastCompaction, foldl_cons, ih, ih]
      cases entry.compaction? with
      | none => simp
      | some fields =>
        cases lastCompaction rest <;> rfl
  rw [lastCompaction, foldl_append, hfold]
  rfl

theorem lastCompaction_singleton (entry : SessionEntry) :
    lastCompaction [entry] = entry.compaction?.map fun fields => (entry, fields) := by
  rw [lastCompaction, foldl_cons, foldl_nil]
  cases entry.compaction? <;> rfl

theorem lastCompaction_eq_none_iff (path : List SessionEntry) :
    lastCompaction path = none ↔ ∀ entry ∈ path, entry.isCompaction = false := by
  induction path with
  | nil => simp [lastCompaction]
  | cons entry rest ih =>
    rw [← singleton_append, lastCompaction_append, or_eq_none_iff, ih,
      lastCompaction_singleton, map_eq_none_iff]
    simp [SessionEntry.isCompaction, and_comm]

variable {path : List SessionEntry}

/-- The last compaction stands between the entries before it and the later ones,
none of which is a compaction. -/
theorem lastCompaction_eq_some {compaction : SessionEntry}
    {fields : Compaction} (hlast : lastCompaction path = some (compaction, fields)) :
    compaction.compaction? = some fields ∧ ∃ before after,
      path = before ++ compaction :: after ∧
        ∀ entry ∈ after, entry.isCompaction = false := by
  induction path using reverseRecOn with
  | nil => cases hlast
  | append_singleton path entry ih =>
    rw [lastCompaction_append, lastCompaction_singleton] at hlast
    cases hentry : entry.compaction? with
    | some found =>
      rw [hentry] at hlast
      cases hlast
      exact ⟨hentry, path, [], rfl, by simp⟩
    | none =>
      rw [hentry] at hlast
      obtain ⟨hfields, before, after, rfl, hafter⟩ := ih hlast
      refine ⟨hfields, before, after ++ [entry], by simp, ?_⟩
      intro other hother
      rcases mem_append.mp hother with hother | hother
      · exact hafter other hother
      rw [mem_singleton.mp hother, SessionEntry.isCompaction, hentry]
      rfl

/-- With distinct ids, the compaction is found where it stands. -/
theorem selectEntries_eq {before after : List SessionEntry} {compaction : SessionEntry}
    {fields : Compaction} (hfields : compaction.compaction? = some fields)
    (hafter : ∀ entry ∈ after, entry.isCompaction = false)
    (hbefore : ∀ entry ∈ before, entry.id ≠ compaction.id) :
    selectEntries (before ++ compaction :: after) =
      compaction :: (keptEntries fields.firstKeptEntryId before ++ after) := by
  have hlast : lastCompaction (before ++ compaction :: after) =
      some (compaction, fields) := by
    rw [← singleton_append, ← append_assoc, lastCompaction_append,
      (lastCompaction_eq_none_iff after).mpr hafter, lastCompaction_append,
      lastCompaction_singleton, hfields]
    rfl
  have hindex : (before ++ compaction :: after).findIdx
      (fun entry => entry.id = compaction.id) = before.length := by
    rw [findIdx_append, if_neg]
    · simp [findIdx_cons]
    rw [findIdx_lt_length]
    rintro ⟨entry, hentry, hid⟩
    exact hbefore entry hentry (of_decide_eq_true hid)
  rw [selectEntries, hlast]
  simp only [hindex, take_left', drop_append]
  simp

variable {entry : SessionEntry}

theorem dropWhile_id {front back : List SessionEntry}
    (hdistinct : ((front ++ entry :: back).map SessionEntry.id).Nodup) :
    (front ++ entry :: back).dropWhile (fun other => other.id ≠ entry.id) =
      entry :: back := by
  have hfront : ∀ other ∈ front, decide (other.id ≠ entry.id) = true := by
    intro other hother
    rw [map_append, nodup_append] at hdistinct
    exact decide_eq_true (hdistinct.2.2 other.id (mem_map_of_mem hother) entry.id
      (by simp))
  rw [dropWhile_append_of_pos hfront, dropWhile_cons_of_neg (by simp)]

/-! ### Edits -/

/-- The latest edit of an id counts. -/
theorem get_contextEdits_append (id : EntryId) :
    PropertyList.get id (contextEdits (front ++ back)) =
      (PropertyList.get id (contextEdits back)).or
        (PropertyList.get id (contextEdits front)) := by
  have hfold : ∀ (entries : List SessionEntry) (edits : List (EntryId × Option Content)),
      PropertyList.get id (entries.foldl (fun edits entry =>
        match entry.edit? with
        | some (targetId, replacement) => JsMap.set targetId replacement edits
        | none => edits) edits) =
      (PropertyList.get id (contextEdits entries)).or (PropertyList.get id edits) := by
    intro entries
    induction entries with
    | nil => intro edits; rfl
    | cons entry rest ih =>
      intro edits
      rw [foldl_cons, contextEdits, foldl_cons, ih, ih]
      cases entry.edit? with
      | none => simp [PropertyList.get]
      | some edit =>
        simp only [get_set]
        split
        · cases PropertyList.get id (contextEdits rest) <;> rfl
        · simp [PropertyList.get]
  rw [contextEdits, foldl_append, hfold]
  rfl

theorem get_contextEdits_singleton (entry : SessionEntry) (id : EntryId) :
    get id (contextEdits [entry]) =
      entry.edit?.bind fun edit => if edit.1 = id then some edit.2 else none := by
  rw [contextEdits, foldl_cons, foldl_nil]
  cases entry.edit? with
  | none => rfl
  | some edit =>
    rfl

variable {entries : List SessionEntry}

theorem get_contextEdits_eq_none {id : EntryId}
    (hedits : ∀ entry ∈ entries, ∀ edit ∈ entry.edit?, edit.1 ≠ id) :
    get id (contextEdits entries) = none := by
  induction entries with
  | nil => rfl
  | cons entry rest ih =>
    have hrest := ih fun other hother => hedits other (mem_cons_of_mem entry hother)
    rw [← singleton_append, get_contextEdits_append, hrest, none_or,
      get_contextEdits_singleton, bind_eq_none_iff]
    intro edit hedit
    exact if_neg (hedits entry mem_cons_self edit hedit)

/-! ### Paths of linked entries -/

/-- Each entry's parent is the one before it; the first one's is given. -/
def Linked : Option EntryId → List SessionEntry → Prop
  | _, [] => True
  | parent, entry :: rest => entry.parentId = parent ∧ Linked (some entry.id) rest

/-- The id of the last entry, or the given one. -/
def lastId (parent : Option EntryId) (path : List SessionEntry) : Option EntryId :=
  (path.getLast?.map SessionEntry.id).or parent

/-- A path from a root to a leaf: distinct ids, each entry the child of the one
before it, and a root whose parent, if any, is missing. -/
structure IsPath (path : List SessionEntry) : Prop where
  distinct : (path.map SessionEntry.id).Nodup
  linked : ∃ parent, Linked parent path ∧ ∀ id ∈ parent, id ∉ path.map SessionEntry.id

theorem linked_append (parent : Option EntryId) (front back : List SessionEntry) :
    Linked parent (front ++ back) ↔ Linked parent front ∧ Linked (lastId parent front) back := by
  induction front generalizing parent with
  | nil => simp [Linked, lastId]
  | cons entry rest ih =>
    have hlast : lastId (some entry.id) rest = lastId parent (entry :: rest) := by
      cases rest with
      | nil => rfl
      | cons next more => simp [lastId, getLast?_cons]
    rw [cons_append, Linked, Linked, ih, and_assoc, hlast]

theorem climb_linked {index : EntryIndex} {parent : Option EntryId}
    {path : List SessionEntry} (hlinked : Linked parent path)
    (hroot : (parent.bind fun id => get id index) = none)
    (hindex : ∀ entry ∈ path, get entry.id index = some entry)
    {fuel : Nat} (hfuel : path.length ≤ fuel) :
    climb index fuel path.getLast? = some path := by
  induction path using reverseRecOn generalizing fuel with
  | nil => cases fuel <;> rfl
  | append_singleton path entry ih =>
    rw [linked_append] at hlinked
    obtain ⟨hpath, hparent, -⟩ := hlinked
    rw [length_append, length_singleton] at hfuel
    obtain ⟨fuel, rfl⟩ : ∃ less, fuel = less + 1 := ⟨fuel - 1, by omega⟩
    have habove : (entry.parentId.bind fun id => get id index) =
        path.getLast? := by
      rw [hparent, lastId]
      cases hlast : path.getLast? with
      | none => exact hroot
      | some last =>
        exact hindex last (mem_append_left _ (mem_of_getLast? hlast))
    have hrest : climb index fuel path.getLast? = some path :=
      ih hpath (fun other hother => hindex other (mem_append_left _ hother))
        (by omega)
    rw [getLast?_concat, climb, habove, hrest]
    rfl

theorem buildEntryIndex_eq (hdistinct : (entries.map SessionEntry.id).Nodup) :
    buildEntryIndex entries = entries.map fun entry => (entry.id, entry) := by
  apply ofPairs_of_nodup
  rw [PropertyList.keys, List.map_map]
  exact hdistinct

theorem get_entryPairs (hdistinct : (entries.map SessionEntry.id).Nodup)
    (hentry : entry ∈ entries) :
    get entry.id (entries.map fun entry => (entry.id, entry)) =
      some entry := by
  apply get_eq_some_of_mem
  · rw [PropertyList.keys, List.map_map]
    exact hdistinct
  · exact mem_map_of_mem hentry

/-- The walk from the end of a path visits the path. -/
theorem buildSessionPath_of_isPath (hpath : IsPath path) :
    buildSessionPath path none none = some path := by
  obtain ⟨parent, hlinked, hroot⟩ := hpath.linked
  have hindex := buildEntryIndex_eq hpath.distinct
  simp only [buildSessionPath, getD_none, hindex]
  apply climb_linked hlinked
  · cases parent with
    | none => rfl
    | some id =>
      rw [bind_some, get_eq_none_iff, PropertyList.keys, List.map_map]
      exact hroot id rfl
  · exact fun entry hentry => get_entryPairs hpath.distinct hentry
  rw [climbFuel, length_map]
  omega

end Hummin.Session
