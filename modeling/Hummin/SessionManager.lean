/-
The session manager: the entries of a session in memory, and the operations that
append to it.  An operation runs in an environment that decides whether the write
to the session file throws; a thrown error leaves the state that the code left.
-/
import Mathlib.Data.List.DropRight
import Hummin.SessionProjection
import Hummin.Transcript

namespace Hummin.Session

structure SessionHeader where
  id : JsString
  timestamp : Instant
  parentSession : Option JsString
deriving DecidableEq

inductive FileEntry
  | session (header : SessionHeader)
  | entry (entry : SessionEntry)
deriving DecidableEq

/-- The fields of a session manager. -/
structure Manager where
  sessionId : JsString
  sessionFile : Option JsString
  persist : Bool
  flushed : Bool
  fileEntries : List FileEntry
  byId : EntryIndex
  labelsById : List (EntryId × JsString)
  labelTimestampsById : List (EntryId × Instant)
  leafId : Option EntryId
deriving DecidableEq

/-- What an operation throws; `diverges` stands for a walk to the root that does
not end. -/
inductive SessionError
  | write
  | notFound (id : EntryId)
  | notOnBranch (id : EntryId)
  | notEditable (id : EntryId)
  | diverges
deriving DecidableEq

/-- What an operation meets: whether the file takes its write, the UUIDs it draws
and the time. -/
structure Environment where
  writes : Bool
  uuids : Nat → JsString
  now : Instant

/-- What an operation returns or throws, and the state it leaves. -/
abbrev Outcome (α : Type) := Except SessionError α × Manager

/-! ### Ids -/

def idLength : Nat := 8
def idAttempts : Nat := 100

/-- The first short id that is not taken, a whole UUID when all attempts fail. -/
def generateId (taken : EntryId → Bool) (uuids : Nat → JsString) : EntryId :=
  match (List.range idAttempts).find? fun attempt =>
      !taken ((uuids attempt).take idLength) with
  | some attempt => (uuids attempt).take idLength
  | none => uuids idAttempts

theorem generateId_not_taken {taken : EntryId → Bool} {uuids : Nat → JsString}
    (hunique : taken (uuids idAttempts) = false) : taken (generateId taken uuids) = false := by
  rw [generateId]
  split
  next attempt hfound =>
    simpa using List.find?_some hfound
  · exact hunique

/-! ### Reading -/

/-- All entries without the header. -/
def Manager.getEntries (manager : Manager) : List SessionEntry :=
  manager.fileEntries.filterMap fun fileEntry =>
    match fileEntry with
    | .session _ => none
    | .entry entry => some entry

/-- The path from the root to an entry; `none` when the walk does not end. -/
def Manager.getBranch (manager : Manager) (fromId : Option EntryId) :
    Option (List SessionEntry) :=
  climb manager.byId (climbFuel manager.byId)
    ((fromId.or manager.leafId).bind fun id => PropertyList.get id manager.byId)

def Manager.buildSessionProjection (manager : Manager) : Option Projection :=
  Session.buildSessionProjection manager.getEntries (some manager.leafId)
    (some manager.byId)

/-! ### Appending -/

/-- Write an entry, or all entries when nothing was written yet. -/
def persistEntry (environment : Environment) (manager : Manager) : Outcome Unit :=
  if manager.persist = false ∨ manager.sessionFile = none then (.ok (), manager)
  else if environment.writes then (.ok (), { manager with flushed := true })
  else (.error .write, manager)

/-- Add an entry in memory and write it; take it back when the write throws. -/
def appendEntry (environment : Environment) (manager : Manager)
    (entry : SessionEntry) : Outcome EntryId :=
  let previousLeafId := manager.leafId
  let pushed := { manager with
    fileEntries := manager.fileEntries ++ [.entry entry]
    byId := JsMap.set entry.id entry manager.byId
    leafId := some entry.id }
  match persistEntry environment pushed with
  | (.ok _, next) => (.ok entry.id, next)
  | (.error failure, next) => (.error failure, { next with
      fileEntries := next.fileEntries.dropLast
      byId := PropertyList.erase entry.id next.byId
      leafId := previousLeafId })

def newEntryId (environment : Environment) (manager : Manager) : EntryId :=
  generateId (fun id => JsMap.has id manager.byId) environment.uuids

/-- Append an entry as a child of the leaf. -/
def appendBody (environment : Environment) (manager : Manager) (body : EntryBody) :
    Outcome EntryId :=
  appendEntry environment manager
    { id := newEntryId environment manager
      parentId := manager.leafId
      timestamp := environment.now
      body }

def appendMessage (environment : Environment) (manager : Manager)
    (message : AgentMessage) : Outcome EntryId :=
  appendBody environment manager (.message message)

def appendThinkingLevelChange (environment : Environment) (manager : Manager)
    (thinkingLevel : JsString) : Outcome EntryId :=
  appendBody environment manager (.thinkingLevelChange thinkingLevel)

def appendModelChange (environment : Environment) (manager : Manager)
    (provider modelId : JsString) : Outcome EntryId :=
  appendBody environment manager (.modelChange provider modelId)

/-- An empty note is left out. -/
def appendUsage (environment : Environment) (manager : Manager)
    (kind provider model : JsString) (usage : Usage) (note : Option JsString) :
    Outcome EntryId :=
  appendBody environment manager
    (.usage kind provider model usage (note.filter fun text => !text.isEmpty))

def appendCustomEntry (environment : Environment) (manager : Manager)
    (customType : JsString) (data : Option JsonValue) : Outcome EntryId :=
  appendBody environment manager (.custom customType data)

def appendCustomMessageEntry (environment : Environment) (manager : Manager)
    (customType : JsString) (content : Content) (display : Bool)
    (details : Option JsonValue) : Outcome EntryId :=
  appendBody environment manager
    (.customMessage customType (some content) display details)

def isLineBreak (unit : UInt16) : Bool :=
  unit = 10 || unit = 13

/-- Each run of line breaks as one space. -/
def joinLines : JsString → JsString
  | [] => []
  | unit :: rest =>
    if isLineBreak unit then
      if rest.head?.any isLineBreak then joinLines rest else 32 :: joinLines rest
    else unit :: joinLines rest

/-- White space and line ends, as `trim` removes them. -/
def isTrimmed (unit : UInt16) : Bool :=
  let code := unit.toNat
  (9 ≤ code && code ≤ 13) || [32, 160, 0x1680, 0x2028, 0x2029, 0x202F, 0x205F, 0x3000,
    0xFEFF].contains code || (0x2000 ≤ code && code ≤ 0x200A)

def trim (text : JsString) : JsString :=
  (text.dropWhile isTrimmed).rdropWhile isTrimmed

def appendSessionInfo (environment : Environment) (manager : Manager)
    (name : JsString) : Outcome EntryId :=
  appendBody environment manager (.sessionInfo (some (trim (joinLines name))))

/-- Append a compaction that holds the current system message; without a first
kept entry it names itself. -/
def appendCompaction (environment : Environment) (manager : Manager)
    (summary : JsString) (firstKeptEntryId : Option EntryId) (tokensBefore : Nat)
    (details : Option JsonValue) (fromHook : Option Bool) (usage : Option Usage) :
    Outcome EntryId :=
  match manager.buildSessionProjection with
  | none => (.error .diverges, manager)
  | some projection =>
    let systemMessage := getCurrentSystemMessage projection.messages
    let id := newEntryId environment manager
    appendBody environment manager (.compaction
      { summary
        firstKeptEntryId := firstKeptEntryId.getD id
        tokensBefore
        details
        usage
        fromHook
        systemMessage := systemMessage.map fun message =>
          { message with timestamp := environment.now } })

/-- The role that decides how a replacement is stored, when the entry can be
edited. -/
def editableRole (entry : SessionEntry) : Option Role :=
  match entry.body with
  | .customMessage _ _ _ _ => some .custom
  | .message message =>
    if [Role.user, .assistant, .toolResult].contains message.role then
      some message.role
    else none
  | _ => none

def normalizeReplacement (role : Role) (content : Content) : Content :=
  if role = .assistant ∨ role = .toolResult then blockContent content else content

/-- Append an edit of an entry of the active branch. -/
def appendContextEdit (environment : Environment) (manager : Manager)
    (targetId : EntryId) (replacement : Option Content) : Outcome EntryId :=
  match PropertyList.get targetId manager.byId with
  | none => (.error (.notFound targetId), manager)
  | some target =>
    match manager.getBranch none with
    | none => (.error .diverges, manager)
    | some branch =>
      if branch.any fun entry => entry.id = targetId then
        match editableRole target with
        | none => (.error (.notEditable targetId), manager)
        | some role => appendBody environment manager
            (.contextEdit targetId (replacement.map (normalizeReplacement role)))
      else (.error (.notOnBranch targetId), manager)

/-- The label maps after a change: an empty label clears. -/
def Manager.setLabel (manager : Manager) (targetId : EntryId)
    (label : Option JsString) (timestamp : Instant) : Manager :=
  match label.filter fun text => !text.isEmpty with
  | some label => { manager with
      labelsById := JsMap.set targetId label manager.labelsById
      labelTimestampsById := JsMap.set targetId timestamp manager.labelTimestampsById }
  | none => { manager with
      labelsById := PropertyList.erase targetId manager.labelsById
      labelTimestampsById := PropertyList.erase targetId manager.labelTimestampsById }

def appendLabelChange (environment : Environment) (manager : Manager)
    (targetId : EntryId) (label : Option JsString) : Outcome EntryId :=
  if JsMap.has targetId manager.byId then
    match appendBody environment manager (.label targetId label) with
    | (.ok id, next) => (.ok id, next.setLabel targetId label environment.now)
    | failed => failed
  else (.error (.notFound targetId), manager)

def rootName : JsString := js ['r', 'o', 'o', 't']

/-- Move the leaf and append a summary of the path that was left. -/
def branchWithSummary (environment : Environment) (manager : Manager)
    (branchFromId : Option EntryId) (summary : JsString) (details : Option JsonValue)
    (fromHook : Option Bool) (usage : Option Usage) : Outcome EntryId :=
  match branchFromId.filter fun id => !JsMap.has id manager.byId with
  | some id => (.error (.notFound id), manager)
  | none =>
    let fromId := manager.leafId.getD rootName
    let moved := { manager with leafId := branchFromId }
    appendEntry environment moved
      { id := newEntryId environment moved
        parentId := branchFromId
        timestamp := environment.now
        body := .branchSummary fromId summary details usage fromHook }

/-! ### All operations -/

inductive Operation
  | appendMessage (message : AgentMessage)
  | appendThinkingLevelChange (thinkingLevel : JsString)
  | appendModelChange (provider modelId : JsString)
  | appendUsage (kind provider model : JsString) (usage : Usage)
      (note : Option JsString)
  | appendCompaction (summary : JsString) (firstKeptEntryId : Option EntryId)
      (tokensBefore : Nat) (details : Option JsonValue) (fromHook : Option Bool)
      (usage : Option Usage)
  | appendCustomEntry (customType : JsString) (data : Option JsonValue)
  | appendSessionInfo (name : JsString)
  | appendCustomMessageEntry (customType : JsString) (content : Content)
      (display : Bool) (details : Option JsonValue)
  | appendContextEdit (targetId : EntryId) (replacement : Option Content)
  | appendLabelChange (targetId : EntryId) (label : Option JsString)
  | branchWithSummary (branchFromId : Option EntryId) (summary : JsString)
      (details : Option JsonValue) (fromHook : Option Bool) (usage : Option Usage)

def perform (environment : Environment) (manager : Manager) : Operation →
    Outcome EntryId
  | .appendMessage message => appendMessage environment manager message
  | .appendThinkingLevelChange thinkingLevel =>
    appendThinkingLevelChange environment manager thinkingLevel
  | .appendModelChange provider modelId =>
    appendModelChange environment manager provider modelId
  | .appendUsage kind provider model usage note =>
    appendUsage environment manager kind provider model usage note
  | .appendCompaction summary firstKeptEntryId tokensBefore details fromHook usage =>
    appendCompaction environment manager summary firstKeptEntryId tokensBefore
      details fromHook usage
  | .appendCustomEntry customType data =>
    appendCustomEntry environment manager customType data
  | .appendSessionInfo name => appendSessionInfo environment manager name
  | .appendCustomMessageEntry customType content display details =>
    appendCustomMessageEntry environment manager customType content display details
  | .appendContextEdit targetId replacement =>
    appendContextEdit environment manager targetId replacement
  | .appendLabelChange targetId label =>
    appendLabelChange environment manager targetId label
  | .branchWithSummary branchFromId summary details fromHook usage =>
    branchWithSummary environment manager branchFromId summary details fromHook usage

/-! ### Starting -/

/-- A new session that is written to a file. -/
def newSession (sessionId sessionFile : JsString) (now : Instant) : Manager where
  sessionId
  sessionFile := some sessionFile
  persist := true
  flushed := false
  fileEntries := [.session ⟨sessionId, now, none⟩]
  byId := []
  labelsById := []
  labelTimestampsById := []
  leafId := none

/-- An environment that draws a UUID of one letter only. -/
def letterEnvironment (letter : Char) : Environment where
  writes := true
  uuids _ := js (List.replicate 36 letter)
  now := 0

end Hummin.Session
