/-
Branched sessions: a session that holds one path of another one.  The labels of the
path are taken out, the entries are chained again, and the labels that hold for them
are written behind them as new entries.
-/
import Hummin.SessionManager

namespace Hummin.Session

/-! ### Indices -/

/-- One step of building the indices. -/
def indexEntry (manager : Manager) (entry : SessionEntry) : Manager :=
  let indexed := { manager with
    byId := JsMap.set entry.id entry manager.byId
    leafId := some entry.id }
  match entry.body with
  | .label targetId label => indexed.setLabel targetId label entry.timestamp
  | _ => indexed

/-- Build the indices of all entries anew. -/
def buildIndex (manager : Manager) : Manager :=
  manager.getEntries.foldl indexEntry { manager with
    byId := []
    labelsById := []
    labelTimestampsById := []
    leafId := none }

def Manager.buildSessionContext (manager : Manager) : Option SessionContext :=
  Session.buildSessionContext manager.getEntries (some manager.leafId)
    (some manager.byId)

/-! ### The path without labels -/

/-- The loop state while a path is taken over. -/
structure Extraction where
  pathWithoutLabels : List SessionEntry
  replacementByLabelId : List (EntryId × EntryId)
  pendingLabelIds : List EntryId
  pathParentId : Option EntryId

/-- A retained entry with its new parent; a compaction that keeps from a label on
keeps from the entry that replaces it. -/
def rechain (parentId : Option EntryId) (replacements : List (EntryId × EntryId))
    (entry : SessionEntry) : SessionEntry :=
  match entry.body with
  | .compaction fields => { entry with
      parentId
      body := .compaction { fields with
        firstKeptEntryId :=
          if fields.firstKeptEntryId = entry.id then entry.id
          else (PropertyList.get fields.firstKeptEntryId replacements).getD
            fields.firstKeptEntryId } }
  | _ => { entry with parentId }

def replacePending (pendingLabelIds : List EntryId) (id : EntryId)
    (replacements : List (EntryId × EntryId)) : List (EntryId × EntryId) :=
  pendingLabelIds.foldl (fun replacements labelId => JsMap.set labelId id replacements)
    replacements

def extractEntry (state : Extraction) (entry : SessionEntry) : Extraction :=
  if entry.isLabel then
    { state with pendingLabelIds := state.pendingLabelIds ++ [entry.id] }
  else
    let replacements :=
      replacePending state.pendingLabelIds entry.id state.replacementByLabelId
    { pathWithoutLabels := state.pathWithoutLabels ++
        [rechain state.pathParentId replacements entry]
      replacementByLabelId := replacements
      pendingLabelIds := []
      pathParentId := some entry.id }

def extract (path : List SessionEntry) : Extraction :=
  path.foldl extractEntry ⟨[], [], [], none⟩

def withoutLabels (path : List SessionEntry) : List SessionEntry :=
  (extract path).pathWithoutLabels

/-! ### The labels -/

structure LabelToWrite where
  targetId : EntryId
  label : JsString
  timestamp : Instant

/-- The labels of the retained entries; both label maps have the same keys. -/
def labelsToWrite (manager : Manager) (pathEntryIds : List EntryId) :
    List LabelToWrite :=
  (manager.labelsById.filter fun pair => pathEntryIds.contains pair.1).map fun pair =>
    { targetId := pair.1
      label := pair.2
      timestamp := (PropertyList.get pair.1 manager.labelTimestampsById).getD 0 }

/-- Label entries one below the other, the first below the parent.  Each draws UUIDs
of its own. -/
def labelEntries (taken : List EntryId) (parentId : Option EntryId) :
    (Nat → Nat → JsString) → List LabelToWrite → List SessionEntry
  | _, [] => []
  | uuids, label :: rest =>
    let id := generateId (fun id => taken.contains id) (uuids 0)
    { id
      parentId
      timestamp := label.timestamp
      body := .label label.targetId (some label.label) } ::
      labelEntries (taken ++ [id]) (some id) (fun index => uuids (index + 1)) rest

/-! ### Branching -/

/-- What a branch meets: whether the files take its write, the UUIDs of each label
entry, the id and the file of the new session and the time. -/
structure BranchEnvironment where
  writes : Bool
  uuids : Nat → Nat → JsString
  newSessionId : JsString
  newSessionFile : JsString
  now : Instant

/-- The entries of the new session. -/
def branchedEntries (environment : BranchEnvironment) (manager : Manager)
    (path : List SessionEntry) : List SessionEntry :=
  let retained := withoutLabels path
  let pathEntryIds := retained.map SessionEntry.id
  retained ++ labelEntries pathEntryIds (retained.getLast?.map SessionEntry.id)
    environment.uuids (labelsToWrite manager pathEntryIds)

def hasAssistant (entries : List SessionEntry) : Bool :=
  entries.any fun entry =>
    match entry.body with
    | .message message => message.role = .assistant
    | _ => false

/-- Replace the session by one that holds the path to an entry.  The file is written
whole when the path has an assistant message, otherwise its header only. -/
def createBranchedSession (environment : BranchEnvironment) (manager : Manager)
    (leafId : EntryId) : Outcome (Option JsString) :=
  match manager.getBranch (some leafId) with
  | none => (.error .diverges, manager)
  | some [] => (.error (.notFound leafId), manager)
  | some path =>
    let header : SessionHeader :=
      { id := environment.newSessionId
        timestamp := environment.now
        parentSession := if manager.persist then manager.sessionFile else none }
    let entries := branchedEntries environment manager path
    let replaced := { manager with
      fileEntries := .session header :: entries.map FileEntry.entry
      sessionId := environment.newSessionId }
    if manager.persist then
      let indexed :=
        buildIndex { replaced with sessionFile := some environment.newSessionFile }
      if environment.writes then
        (.ok (some environment.newSessionFile), { indexed with flushed := hasAssistant entries })
      else (.error .write, indexed)
    else (.ok none, buildIndex replaced)

end Hummin.Session
