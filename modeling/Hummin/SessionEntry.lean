/-
The entries of a session and the messages they contribute to the model's context.
Session files are read without validation, so the content of a message may be
missing.
-/
import Hummin.JsMap
import Hummin.JsonTree

namespace Hummin.Session

/-- Ids are not empty. -/
abbrev EntryId := JsString

/-- A time in milliseconds; entries hold it as an ISO text. -/
abbrev Instant := Int

/-! ### Messages -/

/-- A block of a message's content. -/
inductive Block
  | text (text : JsString)
  | thinking (thinking : JsString)
  | image (data mimeType : JsString)
  | toolCall (id name : JsString) (arguments : JsonValue)
deriving DecidableEq

inductive Content
  | text (text : JsString)
  | blocks (blocks : List Block)
deriving DecidableEq

structure Tool where
  name : JsString
  description : JsString
  parameters : JsonValue
deriving DecidableEq

/-- System instructions and tool declarations at one point in the transcript;
the value `none` of a section removes it. -/
structure SystemMessage where
  content : Option Content
  sections : Option (List (JsString × Option JsString))
  toolsAdded : Option (List Tool)
  toolsRemoved : Option (List JsString)
  timestamp : Instant
deriving DecidableEq

structure Usage where
  input : Nat
  output : Nat
  cacheRead : Nat
  cacheWrite : Nat
  totalTokens : Nat
deriving DecidableEq

inductive StopReason
  | pending
  | stop
  | length
  | toolUse
  | error
  | aborted
  | deferred
deriving DecidableEq

structure NestedToolCallRecord where
  name : JsString
  arguments : Option JsonValue
deriving DecidableEq

inductive AgentMessage
  | system (message : SystemMessage)
  | user (content : Option Content) (timestamp : Instant)
  | assistant (content : Option Content) (provider model : JsString)
      (usage : Option Usage) (stopReason : StopReason) (timestamp : Instant)
  | toolResult (toolCallId toolName : JsString) (content : Option Content)
      (nestedCalls : List NestedToolCallRecord) (isError : Bool)
      (timestamp : Instant)
  | bashExecution (command output : JsString) (timestamp : Instant)
  | custom (customType : JsString) (content : Option Content) (display : Bool)
      (details : Option JsonValue) (timestamp : Instant)
  | branchSummary (summary : JsString) (fromId : EntryId) (timestamp : Instant)
  | compactionSummary (summary : JsString) (tokensBefore : Nat) (timestamp : Instant)
deriving DecidableEq

inductive Role
  | system
  | user
  | assistant
  | toolResult
  | bashExecution
  | custom
  | branchSummary
  | compactionSummary
deriving DecidableEq

def AgentMessage.role : AgentMessage → Role
  | .system _ => .system
  | .user _ _ => .user
  | .assistant _ _ _ _ _ _ => .assistant
  | .toolResult _ _ _ _ _ _ => .toolResult
  | .bashExecution _ _ _ => .bashExecution
  | .custom _ _ _ _ _ => .custom
  | .branchSummary _ _ _ => .branchSummary
  | .compactionSummary _ _ _ => .compactionSummary

/-- Not a system message. -/
def AgentMessage.isConversation (message : AgentMessage) : Bool :=
  message.role != .system

/-! ### Entries -/

structure Compaction where
  summary : JsString
  firstKeptEntryId : EntryId
  tokensBefore : Nat
  details : Option JsonValue
  usage : Option Usage
  fromHook : Option Bool
  systemMessage : Option SystemMessage
deriving DecidableEq

/-- The fields of an entry of each type. -/
inductive EntryBody
  | message (message : AgentMessage)
  | thinkingLevelChange (thinkingLevel : JsString)
  | modelChange (provider modelId : JsString)
  | usage (kind provider model : JsString) (usage : Usage) (note : Option JsString)
  | compaction (fields : Compaction)
  | branchSummary (fromId : EntryId) (summary : JsString)
      (details : Option JsonValue) (usage : Option Usage) (fromHook : Option Bool)
  | custom (customType : JsString) (data : Option JsonValue)
  | customMessage (customType : JsString) (content : Option Content)
      (display : Bool) (details : Option JsonValue)
  | contextEdit (targetId : EntryId) (replacement : Option Content)
  | label (targetId : EntryId) (label : Option JsString)
  | sessionInfo (name : Option JsString)
deriving DecidableEq

structure SessionEntry where
  id : EntryId
  parentId : Option EntryId
  timestamp : Instant
  body : EntryBody
deriving DecidableEq

def SessionEntry.compaction? (entry : SessionEntry) : Option Compaction :=
  match entry.body with
  | .compaction fields => some fields
  | _ => none

variable {entry : SessionEntry}

theorem body_of_compaction? {fields : Compaction}
    (hfields : entry.compaction? = some fields) : entry.body = .compaction fields := by
  rw [SessionEntry.compaction?] at hfields
  split at hfields
  next found hbody =>
    rw [hbody, Option.some.inj hfields]
  · cases hfields

def SessionEntry.isCompaction (entry : SessionEntry) : Bool :=
  entry.compaction?.isSome

def SessionEntry.isLabel (entry : SessionEntry) : Bool :=
  match entry.body with
  | .label _ _ => true
  | _ => false

/-- A message entry of the system's role. -/
def SessionEntry.isSystem (entry : SessionEntry) : Bool :=
  match entry.body with
  | .message (.system _) => true
  | _ => false

/-- The target and the replacement of a context edit. -/
def SessionEntry.edit? (entry : SessionEntry) : Option (EntryId × Option Content) :=
  match entry.body with
  | .contextEdit targetId replacement => some (targetId, replacement)
  | _ => none

/-! ### Context messages -/

/-- Missing content is empty content; a custom message keeps none. -/
def normalizeMessage : AgentMessage → AgentMessage
  | .system message =>
    .system { message with content := some (message.content.getD (.text [])) }
  | .user content timestamp => .user (some (content.getD (.blocks []))) timestamp
  | .assistant content provider model usage stopReason timestamp =>
    .assistant (some (content.getD (.blocks []))) provider model usage stopReason
      timestamp
  | .toolResult toolCallId toolName content nestedCalls isError timestamp =>
    .toolResult toolCallId toolName (some (content.getD (.blocks []))) nestedCalls
      isError timestamp
  | message => message

/-- Project one entry into messages of the model's context. -/
def sessionEntryToContextMessages (entry : SessionEntry) : List AgentMessage :=
  match entry.body with
  | .message message => [normalizeMessage message]
  | .customMessage customType content display details =>
    [.custom customType (some (content.getD (.blocks []))) display details entry.timestamp]
  | .branchSummary fromId summary _ _ _ =>
    if summary.isEmpty then [] else [.branchSummary summary fromId entry.timestamp]
  | .compaction fields =>
    let summary :=
      AgentMessage.compactionSummary fields.summary fields.tokensBefore entry.timestamp
    match fields.systemMessage with
    | some message => [.system message, summary]
    | none => [summary]
  | _ => []

/-- A replacement text of an assistant or a tool result is a text block. -/
def blockContent : Content → Content
  | .text text => .blocks [.text text]
  | content => content

/-- The message with its content replaced, for the roles that can be edited. -/
def replaceContent (content : Content) : AgentMessage → AgentMessage
  | .user _ timestamp => .user (some content) timestamp
  | .assistant _ provider model usage stopReason timestamp =>
    .assistant (some (blockContent content)) provider model usage stopReason timestamp
  | .toolResult toolCallId toolName _ nestedCalls isError timestamp =>
    .toolResult toolCallId toolName (some (blockContent content)) nestedCalls isError
      timestamp
  | .custom customType _ display details timestamp =>
    .custom customType (some content) display details timestamp
  | message => message

/-- Project one entry, with its latest context edit applied. -/
def projectContextEntry (entry : SessionEntry) (edit : Option (Option Content)) :
    List AgentMessage :=
  let messages := sessionEntryToContextMessages entry
  match edit with
  | none => messages
  | some none => []
  | some (some content) => messages.map (replaceContent content)

theorem role_replaceContent (content : Content) (message : AgentMessage) :
    (replaceContent content message).role = message.role := by
  cases message <;> rfl

theorem role_normalizeMessage (message : AgentMessage) :
    (normalizeMessage message).role = message.role := by
  cases message <;> rfl

/-- Only compactions contribute two messages. -/
theorem length_sessionEntryToContextMessages (hentry : entry.isCompaction = false) :
    (sessionEntryToContextMessages entry).length ≤ 1 := by
  rw [sessionEntryToContextMessages]
  cases hbody : entry.body with
  | compaction fields =>
    simp [SessionEntry.isCompaction, SessionEntry.compaction?, hbody] at hentry
  | branchSummary fromId summary _ _ _ =>
    dsimp only
    split <;> simp
  | _ => simp

theorem length_projectContextEntry (hentry : entry.isCompaction = false)
    (edit : Option (Option Content)) : (projectContextEntry entry edit).length ≤ 1 := by
  have hmessages := length_sessionEntryToContextMessages hentry
  rcases edit with _ | _ | content
  · exact hmessages
  · exact Nat.zero_le 1
  · rwa [projectContextEntry, List.length_map]

end Hummin.Session
