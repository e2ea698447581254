/-
The preparation of a compaction: where the projected context is cut, and which
messages are summarized.
-/
import Hummin.JsonText
import Hummin.SessionProjection
import Hummin.Transcript

namespace Hummin.Session

/-! ### File operations -/

/-- Sets of files, in the order in which they were added. -/
structure FileOperations where
  read : List JsonValue
  written : List JsonValue
  edited : List JsonValue
deriving DecidableEq

def addFile (file : JsonValue) (files : List JsonValue) : List JsonValue :=
  if file ∈ files then files else files ++ [file]

def field (name : JsString) : JsonValue → Option JsonValue
  | .obj _ fields => PropertyList.get name fields
  | _ => none

def pathKey : JsString := js ['p', 'a', 't', 'h']

def addFileOp (toolName : JsString) (arguments : Option JsonValue)
    (fileOps : FileOperations) : FileOperations :=
  match arguments.bind (field pathKey) with
  | some (.str path) =>
    if path.isEmpty then fileOps
    else if toolName = js ['r', 'e', 'a', 'd'] then
      { fileOps with read := addFile (.str path) fileOps.read }
    else if toolName = js ['w', 'r', 'i', 't', 'e'] then
      { fileOps with written := addFile (.str path) fileOps.written }
    else if toolName = js ['e', 'd', 'i', 't'] then
      { fileOps with edited := addFile (.str path) fileOps.edited }
    else fileOps
  | _ => fileOps

/-- The file operations of a message's tool calls, or of the calls that a tool
recorded on its result. -/
def extractFileOpsFromMessage (fileOps : FileOperations) : AgentMessage → FileOperations
  | .toolResult _ _ _ nestedCalls _ _ =>
    nestedCalls.foldl (fun fileOps call => addFileOp call.name call.arguments fileOps)
      fileOps
  | .assistant (some (.blocks blocks)) _ _ _ _ _ =>
    blocks.foldl (fun fileOps block =>
      match block with
      | .toolCall _ name arguments => addFileOp name (some arguments) fileOps
      | _ => fileOps) fileOps
  | _ => fileOps

def listField (name : JsString) (details : JsonValue) : List JsonValue :=
  match field name details with
  | some (.arr _ items) => items
  | _ => []

def readFilesKey : JsString := js ['r', 'e', 'a', 'd', 'F', 'i', 'l', 'e', 's']

def modifiedFilesKey : JsString :=
  js ['m', 'o', 'd', 'i', 'f', 'i', 'e', 'd', 'F', 'i', 'l', 'e', 's']

/-- The files that a compaction of our own recorded. -/
def recordedFileOps (previous : Option Compaction) : FileOperations :=
  match previous.filter fun fields => fields.fromHook != some true with
  | some fields =>
    { read := (fields.details.map (listField readFilesKey)).getD [] |>.foldl
        (fun files file => addFile file files) []
      written := []
      edited := (fields.details.map (listField modifiedFilesKey)).getD [] |>.foldl
        (fun files file => addFile file files) [] }
  | none => ⟨[], [], []⟩

def extractFileOperations (messages : List AgentMessage) (previous : Option Compaction) :
    FileOperations :=
  messages.foldl extractFileOpsFromMessage (recordedFileOps previous)

/-! ### Token estimates -/

/-- The native total, or the sum of its parts. -/
def calculateContextTokens (usage : Usage) : Nat :=
  if usage.totalTokens ≠ 0 then usage.totalTokens
  else usage.input + usage.output + usage.cacheRead + usage.cacheWrite

def getAssistantUsage : AgentMessage → Option Usage
  | .assistant _ _ _ usage stopReason _ =>
    if stopReason = .aborted ∨ stopReason = .error then none
    else usage.filter fun usage => decide (0 < calculateContextTokens usage)
  | _ => none

def estimatedImageChars : Nat := 4800

def blockChars : Block → Nat
  | .text text => text.length
  | .image _ _ => estimatedImageChars
  | _ => 0

/-- Texts and images; missing content counts nothing. -/
def estimateTextAndImageContentChars : Option Content → Nat
  | none => 0
  | some (.text text) => text.length
  | some (.blocks blocks) => (blocks.map blockChars).sum

def Tool.json (tool : Tool) : JsonValue :=
  .obj () [(js ['n', 'a', 'm', 'e'], .str tool.name),
    (js ['d', 'e', 's', 'c', 'r', 'i', 'p', 't', 'i', 'o', 'n'], .str tool.description),
    (js ['p', 'a', 'r', 'a', 'm', 'e', 't', 'e', 'r', 's'], tool.parameters)]

def systemChars (message : SystemMessage) : Nat :=
  estimateTextAndImageContentChars message.content +
    ((message.sections.getD []).map fun change =>
      (change.2.map List.length).getD 0).sum +
    (message.toolsAdded.map fun tools =>
      (JsonText.stringify (.arr () (tools.map Tool.json))).length).getD 0

def assistantBlockChars : Block → Nat
  | .text text => text.length
  | .thinking thinking => thinking.length
  | .toolCall _ name arguments => name.length + (JsonText.stringify arguments).length
  | .image _ _ => 0

def assistantChars : Option Content → Nat
  | some (.blocks blocks) => (blocks.map assistantBlockChars).sum
  | _ => 0

def messageChars : AgentMessage → Nat
  | .system message => systemChars message
  | .assistant content _ _ _ _ _ => assistantChars content
  | .user content _ | .custom _ content _ _ _ | .toolResult _ _ content _ _ _ =>
    estimateTextAndImageContentChars content
  | .bashExecution command output _ => command.length + output.length
  | .branchSummary summary _ _ | .compactionSummary summary _ _ => summary.length

/-- Four characters a token, rounded up. -/
def estimateTokens (message : AgentMessage) : Nat :=
  (messageChars message + 3) / 4

def sumTokens (messages : List AgentMessage) : Nat :=
  (messages.map estimateTokens).sum

structure ContextUsageEstimate where
  tokens : Nat
  usageTokens : Nat
  trailingTokens : Nat
  lastUsageIndex : Option Nat
deriving DecidableEq

/-- The last message with a usage and its index. -/
def getLastAssistantUsageInfo (messages : List AgentMessage) : Option (Usage × Nat) :=
  (messages.zipIdx.filterMap fun indexed =>
    (getAssistantUsage indexed.1).map fun usage => (usage, indexed.2)).getLast?

def estimateContextTokens (messages : List AgentMessage) : ContextUsageEstimate :=
  match getLastAssistantUsageInfo messages with
  | none =>
    let estimated := sumTokens messages
    ⟨estimated, 0, estimated, none⟩
  | some (usage, index) =>
    let usageTokens := calculateContextTokens usage
    let trailingTokens := sumTokens (messages.drop (index + 1))
    ⟨usageTokens + trailingTokens, usageTokens, trailingTokens, some index⟩

/-- The entry that owns the message at an index. -/
def ownerOfMessage : List ProjectedEntry → Nat → Option EntryId
  | [], _ => none
  | projected :: rest, index =>
    if index < projected.messages.length then some projected.sourceEntry.id
    else ownerOfMessage rest (index - projected.messages.length)

/-- The estimate, without a usage that was taken before the last edit or
compaction. -/
def estimateProjectedContextTokens (projection : Projection)
    (branchEntries : List SessionEntry) : ContextUsageEstimate :=
  let estimate := estimateContextTokens projection.messages
  let usageEntryId := estimate.lastUsageIndex.bind (ownerOfMessage projection.entries)
  let usageIndex := usageEntryId.bind fun id =>
    branchEntries.findIdx? fun entry => entry.id = id
  let invalidating := (branchEntries.zipIdx.filter fun indexed =>
    indexed.1.edit?.isSome || indexed.1.isCompaction).getLast?.map Prod.snd
  let isCurrent : Bool :=
    match usageIndex, invalidating with
    | some usage, some edit => decide (edit < usage)
    | some _, none => true
    | none, _ => false
  if isCurrent then estimate
  else
    let system :=
      ((getCurrentSystemMessage projection.messages).map fun message =>
        estimateTokens (.system message)).getD 0
    let tokens := system + sumTokens (projection.messages.filter AgentMessage.isConversation)
    ⟨tokens, 0, tokens, none⟩

/-! ### Cut points -/

def isCutPointMessage (message : AgentMessage) : Bool :=
  match message.role with
  | .user | .assistant | .bashExecution | .custom | .branchSummary
  | .compactionSummary => true
  | .toolResult | .system => false

def isTurnStartMessage (message : AgentMessage) : Bool :=
  match message.role with
  | .user | .bashExecution | .custom | .branchSummary | .compactionSummary => true
  | .assistant | .toolResult | .system => false

def isProjectedTurnStart (projected : ProjectedEntry) : Bool :=
  !projected.sourceEntry.isCompaction && projected.messages.any isTurnStartMessage

/-- The last turn start at or before an index, not before the start. -/
def findProjectedTurnStartIndex (entries : List ProjectedEntry) (startIndex : Nat) :
    Nat → Option Nat
  | 0 =>
    if startIndex = 0 ∧ entries[0]?.any isProjectedTurnStart then some 0 else none
  | index + 1 =>
    if index + 1 < startIndex then none
    else if entries[index + 1]?.any isProjectedTurnStart then some (index + 1)
    else findProjectedTurnStartIndex entries startIndex index

def isCutPoint (projected : ProjectedEntry) : Bool :=
  !projected.sourceEntry.isCompaction && projected.messages.any isCutPointMessage

/-- The indices from the start to the end that may be cut at. -/
def projectedCutPoints (entries : List ProjectedEntry) (startIndex endIndex : Nat) :
    List Nat :=
  (List.range' startIndex (endIndex - startIndex)).filter fun index =>
    entries[index]?.any isCutPoint

def tokensAt (entries : List ProjectedEntry) (index : Nat) : Nat :=
  ((entries[index]?.map fun projected => sumTokens projected.messages)).getD 0

/-- Walk back from the newest of `count` entries until the budget is used up. -/
def budgetIndex (entries : List ProjectedEntry) (startIndex : Nat)
    (keepRecentTokens : ℚ) : Nat → Nat → Option Nat
  | 0, _ => none
  | count + 1, accumulated =>
    let tokens := tokensAt entries (startIndex + count)
    if tokens ≠ 0 ∧ keepRecentTokens ≤ (accumulated + tokens : Nat) then
      some (startIndex + count)
    else budgetIndex entries startIndex keepRecentTokens count (accumulated + tokens)

/-- The entry shows messages when nothing edits it. -/
def isIntrinsicallyVisible (projected : ProjectedEntry) : Bool :=
  projected.sourceEntry.edit?.isNone &&
    !(sessionEntryToContextMessages projected.sourceEntry).isEmpty

def isOmitted (projected : ProjectedEntry) : Bool :=
  isIntrinsicallyVisible projected && projected.messages.isEmpty

def isAssistantEntry (entry : SessionEntry) : Bool :=
  match entry.body with
  | .message message => message.role = .assistant
  | _ => false

/-- A replacement of an entry that the suffix does not omit. -/
def isExternalReplacement (omittedIds : List EntryId) (projected : ProjectedEntry) :
    Bool :=
  match projected.sourceEntry.edit? with
  | some (targetId, some _) => !omittedIds.contains targetId
  | _ => false

/-- A closed suffix that shows nothing and omits an assistant's attempt. -/
def isRecoveryOmissionSuffix (suffix : List ProjectedEntry) : Bool :=
  let omittedIds := (suffix.filter isOmitted).map fun projected =>
    projected.sourceEntry.id
  !suffix.any (isExternalReplacement omittedIds) &&
    suffix.any (fun projected =>
      isAssistantEntry projected.sourceEntry && isOmitted projected) &&
    suffix.all fun projected =>
      !projected.sourceEntry.isCompaction &&
        (!isIntrinsicallyVisible projected || isOmitted projected)

/-- Move back over entries that show nothing. -/
def stepBack (entries : List ProjectedEntry) (startIndex : Nat) : Nat → Nat
  | 0 => 0
  | cutIndex + 1 =>
    if startIndex < cutIndex + 1 ∧ entries[cutIndex]?.any (fun previous =>
        !previous.sourceEntry.isCompaction && previous.messages.isEmpty) then
      stepBack entries startIndex cutIndex
    else cutIndex + 1

structure CutPointResult where
  firstKeptEntryIndex : Nat
  turnStartIndex : Option Nat
  isSplitTurn : Bool
deriving DecidableEq

/-- The cut before the adjustments, and whether the budget was used up. -/
def budgetCut (entries : List ProjectedEntry) (startIndex endIndex : Nat)
    (keepRecentTokens : ℚ) (firstCut : Nat) (cutPoints : List Nat) : Nat × Bool :=
  match budgetIndex entries startIndex keepRecentTokens (endIndex - startIndex) 0 with
  | some index =>
    (((firstCut :: cutPoints).find? fun candidate => index ≤ candidate).getD
      ((firstCut :: cutPoints).getLast (by simp)), true)
  | none => (firstCut, false)

/-- The cut and the turn that it splits, if it is not the start of one. -/
def cutAt (entries : List ProjectedEntry) (startIndex cutIndex : Nat) :
    CutPointResult :=
  let startsTurn := entries[cutIndex]?.any isProjectedTurnStart
  let turnStartIndex :=
    if startsTurn then none
    else findProjectedTurnStartIndex entries startIndex cutIndex
  ⟨cutIndex, turnStartIndex, !startsTurn && turnStartIndex.isSome⟩

def findProjectedCutPoint (entries : List ProjectedEntry) (startIndex endIndex : Nat)
    (keepRecentTokens : ℚ) : CutPointResult :=
  match projectedCutPoints entries startIndex endIndex with
  | [] => ⟨startIndex, none, false⟩
  | firstCut :: cutPoints =>
    let (cutIndex, exceededBudget) :=
      budgetCut entries startIndex endIndex keepRecentTokens firstCut cutPoints
    let suffix := (entries.take endIndex).drop (cutIndex + 1)
    let advanced :=
      if exceededBudget ∧ isRecoveryOmissionSuffix suffix then cutIndex + 1
      else cutIndex
    cutAt entries startIndex (stepBack entries startIndex advanced)

/-! ### Preparation -/

structure CompactionSettings where
  enabled : Bool
  reserveTokens : ℚ
  keepRecentTokens : ℚ
deriving DecidableEq

structure CompactionPreparation where
  firstKeptEntryId : EntryId
  messagesToSummarize : List AgentMessage
  turnPrefixMessages : List AgentMessage
  isSplitTurn : Bool
  tokensBefore : Nat
  previousSummary : Option JsString
  fileOps : FileOperations
  settings : CompactionSettings
deriving DecidableEq

def getMessagesFromProjectedEntryForCompaction (projected : ProjectedEntry) :
    List AgentMessage :=
  if projected.sourceEntry.isCompaction then []
  else projected.messages.filter AgentMessage.isConversation

/-- `entries.slice(first, last)` as messages to summarize. -/
def messagesBetween (entries : List ProjectedEntry) (first last : Nat) :
    List AgentMessage :=
  ((entries.take last).drop first).flatMap getMessagesFromProjectedEntryForCompaction

/-- The messages before the cut, or before the turn that it splits. -/
def historyMessages (entries : List ProjectedEntry) (boundaryStart : Nat)
    (cutPoint : CutPointResult) : List AgentMessage :=
  messagesBetween entries boundaryStart
    (if cutPoint.isSplitTurn then cutPoint.turnStartIndex.getD 0
    else cutPoint.firstKeptEntryIndex)

/-- The messages of a split turn before the cut. -/
def prefixMessages (entries : List ProjectedEntry) (cutPoint : CutPointResult) :
    List AgentMessage :=
  if cutPoint.isSplitTurn then
    messagesBetween entries (cutPoint.turnStartIndex.getD 0)
      cutPoint.firstKeptEntryIndex
  else []

def prepareProjection (pathEntries : List SessionEntry) (settings : CompactionSettings)
    (projection : Projection) : Option CompactionPreparation :=
  let entries := projection.entries
  let prevCompactionIndex := entries.findIdx? fun projected =>
    projected.sourceEntry.isCompaction && !projected.messages.isEmpty
  let previous := prevCompactionIndex.bind fun index =>
    entries[index]?.bind fun projected => projected.sourceEntry.compaction?
  let boundaryStart := (prevCompactionIndex.map (· + 1)).getD 0
  let boundaryEnd := entries.length
  let tokensBefore := (estimateProjectedContextTokens projection pathEntries).tokens
  let cutPoint :=
    findProjectedCutPoint entries boundaryStart boundaryEnd settings.keepRecentTokens
  match entries[cutPoint.firstKeptEntryIndex]? with
  | none => none
  | some firstKept =>
    let messagesToSummarize := historyMessages entries boundaryStart cutPoint
    let turnPrefixMessages := prefixMessages entries cutPoint
    if messagesToSummarize.isEmpty ∧ turnPrefixMessages.isEmpty then none
    else
      let fileOps := extractFileOperations messagesToSummarize previous
      some
        { firstKeptEntryId := firstKept.sourceEntry.id
          messagesToSummarize
          turnPrefixMessages
          isSplitTurn := cutPoint.isSplitTurn
          tokensBefore
          previousSummary := previous.map Compaction.summary
          fileOps :=
            if cutPoint.isSplitTurn then
              turnPrefixMessages.foldl extractFileOpsFromMessage fileOps
            else fileOps
          settings }

/-- The preparation, when there is something to summarize; a path that ends in a
compaction has nothing.  The outer `none` stands for a walk that does not end. -/
def prepareCompaction (pathEntries : List SessionEntry) (settings : CompactionSettings) :
    Option (Option CompactionPreparation) :=
  if pathEntries.getLast?.any SessionEntry.isCompaction then some none
  else
    (buildSessionProjection pathEntries none none).map
      (prepareProjection pathEntries settings)

end Hummin.Session
