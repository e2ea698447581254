/-
The agent loop: turns of an assistant response and its tool calls, with messages taken from
the steering and follow-up queues between them. A step is what happens from one wait of the
loop, or of one of its tool calls, to the next.
-/
import Hummin.AgentMessages

namespace Hummin.AgentLoop

universe u

open Provider (StopReason)

variable {π : Type u}

/-- A tool call by its response's place in the run and its own place in the response. -/
structure CallKey where
  turn : Nat
  index : Nat
deriving DecidableEq

inductive Event (π : Type u)
  | agentStart
  | turnStart
  | messageStart (message : Message π)
  | messageUpdate (message : Message π)
  | messageEnd (message : Message π)
  | toolExecutionStart (key : CallKey) (call : ToolCall π)
  | toolExecutionUpdate (key : CallKey) (call : ToolCall π) (partialResult : ToolResult π)
  | toolExecutionEnd (key : CallKey) (call : ToolCall π) (result : ToolResult π) (isError : Bool)
  | turnEnd (message : AssistantMessage π) (toolResults : List (ToolResultMessage π))
  | agentEnd (messages : List (Message π))
deriving DecidableEq

/-- What becomes of a call before it is executed. -/
inductive Verdict
  | ready
  | unknown
  | invalid
  | blocked
  | aborted
  | truncated
deriving DecidableEq

/-- What the loop does in order: events, verdicts on calls, and calls of `execute`. -/
inductive Action (π : Type u)
  | emit (event : Event π)
  | judged (key : CallKey) (verdict : Verdict)
  | execute (key : CallKey)
deriving DecidableEq

structure Finalized (π : Type u) where
  call : ToolCall π
  result : ToolResult π
  isError : Bool
deriving DecidableEq

/-- How far a tool call is. -/
inductive Stage (π : Type u)
  | preparing
  | waiting
  | executing
  | finalizing (result : ToolResult π) (isError : Bool)
  | finalized (outcome : Finalized π)
deriving DecidableEq

namespace Stage

def outcome? : Stage π → Option (Finalized π)
  | .finalized outcome => some outcome
  | _ => none

def isWaiting : Stage π → Bool
  | .waiting => true
  | _ => false

def isExecuting : Stage π → Bool
  | .executing => true
  | _ => false

end Stage

/-- What the loop waits for. The stages are those of the response's calls in order. -/
inductive Phase (π : Type u)
  | steering
  | preparingTurn
  | steeringAgain (prepared : List (Message π))
  | requesting
  | streaming (started : Bool)
  | sequential (message : AssistantMessage π) (finalized : List (Finalized π)) (stage : Stage π)
  | preparingCalls (message : AssistantMessage π) (stages : List (Stage π))
  | running (message : AssistantMessage π) (stages : List (Stage π))
  | finishing (message : AssistantMessage π) (toolResults : List (ToolResultMessage π)) (hasMoreToolCalls : Bool)
  | polling (hasMoreToolCalls : Bool) (explicitContinuation : Bool)
  | followUps (explicitContinuation : Bool)
  | ended
deriving DecidableEq

/-- The stages of the calls of the response that is being answered. -/
def Phase.stages : Phase π → List (Stage π)
  | .sequential _ finalized stage => finalized.map .finalized ++ [stage]
  | .preparingCalls _ stages => stages ++ [.preparing]
  | .running _ stages => stages
  | _ => []

/-- `messages` are the new messages of the run. `turn` counts its responses, and `taken` are
the messages of the queues in the order in which they were polled. -/
structure State (π : Type u) where
  context : Context π
  messages : List (Message π)
  pending : List (Message π)
  turn : Nat
  aborted : Bool
  phase : Phase π
  trace : List (Action π)
  taken : List (Message π)
deriving DecidableEq

namespace State

/-- A state after some more actions. -/
def act (state : State π) (actions : List (Action π)) : State π :=
  { state with trace := state.trace ++ actions }

def at' (state : State π) (phase : Phase π) : State π := { state with phase := phase }

def abortIf (state : State π) (late : Bool) : State π := { state with aborted := state.aborted || late }

end State

/-! ### Messages -/

def emitMessage (message : Message π) : List (Action π) :=
  [.emit (.messageStart message), .emit (.messageEnd message)]

/-- Each message is emitted and added to the context and to the new messages. -/
def addMessages (state : State π) (messages : List (Message π)) : State π :=
  { state.act (messages.flatMap emitMessage) with
    context := { state.context with messages := state.context.messages ++ messages }
    messages := state.messages ++ messages }

/-- The prepared and the pending messages are processed before the next response. -/
def processPending [DecidableEq π] (state : State π) (prepared : List (Message π)) : State π :=
  let added := addMessages state (declareToolChanges state.context (prepared ++ state.pending))
  { added with pending := [], phase := .requesting }

/-! ### Tool calls -/

def createErrorToolResult (message : JsString) : ToolResult π :=
  ⟨some (.text message), some .empty, none, none, none⟩

def createToolResultMessage (outcome : Finalized π) : ToolResultMessage π :=
  ⟨outcome.call.id, outcome.call.name, outcome.result.content.getD .empty, outcome.result.details,
    outcome.result.usage, outcome.isError⟩

def emitToolExecutionEnd (key : CallKey) (outcome : Finalized π) : Action π :=
  .emit (.toolExecutionEnd key outcome.call outcome.result outcome.isError)

def emitToolResultMessage (outcome : Finalized π) : List (Action π) :=
  emitMessage (.toolResult (createToolResultMessage outcome))

def shouldTerminateToolBatch (finalizedCalls : List (Finalized π)) : Bool :=
  !finalizedCalls.isEmpty && finalizedCalls.all fun outcome => decide (outcome.result.terminate = some true)

/-- What preparing the arguments, validating them and `beforeToolCall` come to. -/
inductive Checked
  | invalid (message : JsString)
  | blocked (reason : Option JsString) (terminate : Bool)
  | allowed
deriving DecidableEq

inductive Preparation (π : Type u)
  | prepared
  | immediate (verdict : Verdict) (result : ToolResult π)

def prepareToolCall (tools : List (Tool π)) (aborted : Bool) (call : ToolCall π) (checked : Checked) : Preparation π :=
  if (tools.find? fun tool => decide (tool.declaration.name = call.name)).isNone then
    .immediate .unknown
      (createErrorToolResult (js "Tool ".toList ++ call.name ++ js " not found".toList))
  else match checked with
    | .invalid message => .immediate .invalid (createErrorToolResult message)
    | .blocked reason terminate =>
      if aborted then .immediate .aborted (createErrorToolResult (js "Operation aborted".toList))
      else
        let text := match reason with
          | some (unit :: rest) => unit :: rest
          | _ => js "Tool execution was blocked".toList
        .immediate .blocked
          { createErrorToolResult text with terminate := if terminate then some true else none }
    | .allowed =>
      if aborted then .immediate .aborted (createErrorToolResult (js "Operation aborted".toList))
      else .prepared

/-- What a call of `execute` settles with. -/
inductive Outcome (π : Type u)
  | returned (result : ToolResult π) (isError : Bool)
  | threw (message : JsString)

def executePreparedToolCall : Outcome π → Stage π
  | .returned result isError => .finalizing result isError
  | .threw message => .finalizing (createErrorToolResult message) true

structure AfterResult (π : Type u) where
  content : Option (Content π)
  details : Option (Content π)
  usage : Option π
  structuredContent : Option π
  terminate : Option Bool
  isError : Option Bool

/-- What `afterToolCall` gives. -/
inductive After (π : Type u)
  | kept
  | replaced (result : AfterResult π)
  | threw (message : JsString)

def finalizeExecutedToolCall (call : ToolCall π) (result : ToolResult π) (isError : Bool) : After π → Finalized π
  | .kept => ⟨call, result, isError⟩
  | .replaced after =>
    let structuredContent := after.structuredContent.or
      (if after.content.isSome then none else result.structuredContent)
    ⟨call,
      ⟨after.content.or result.content, after.details.or result.details, after.usage.or result.usage,
        structuredContent, after.terminate.or result.terminate⟩,
      after.isError.getD isError⟩
  | .threw message => ⟨call, createErrorToolResult message, true⟩

/-- The results of a response's calls join the messages, and `finishTurn` is next. -/
def finishCalls (state : State π) (message : AssistantMessage π) (finalized : List (Finalized π))
    (terminate : Bool) : State π :=
  let toolResults := finalized.map createToolResultMessage
  { state with
    context := { state.context with messages := state.context.messages ++ toolResults.map .toolResult }
    messages := state.messages ++ toolResults.map .toolResult
    phase := .finishing message toolResults !terminate }

def truncatedText (call : ToolCall π) : JsString :=
  js "Tool call \"".toList ++ call.name ++
    js "\" was not executed: the response hit the output token limit, so its arguments may be truncated. ".toList ++
    js "Re-issue the tool call with complete arguments.".toList

/-- Every call of a response that was cut off fails. -/
def failToolCallsFromTruncatedMessage (state : State π) (message : AssistantMessage π) : State π :=
  let finalized := message.calls.map fun call => ⟨call, createErrorToolResult (truncatedText call), true⟩
  let acted := state.act (finalized.zipIdx.flatMap fun entry =>
    let key : CallKey := ⟨state.turn, entry.2⟩
    [.emit (.toolExecutionStart key entry.1.call), .judged key .truncated, emitToolExecutionEnd key entry.1] ++
      emitToolResultMessage entry.1)
  finishCalls acted message finalized false

/-- The start of the response's call at `index`. -/
def startCall (state : State π) (index : Nat) (call : ToolCall π) : State π :=
  state.act [.emit (.toolExecutionStart ⟨state.turn, index⟩ call)]

def executeToolCalls (sequential : Bool) (state : State π) (message : AssistantMessage π) (call : ToolCall π) :
    State π :=
  let hasSequentialToolCall := message.calls.any fun call =>
    ((state.context.tools.find? fun tool => decide (tool.declaration.name = call.name)).map
      fun tool => tool.sequential).getD false
  if sequential || hasSequentialToolCall then
    (startCall state 0 call).at' (.sequential message [] .preparing)
  else (startCall state 0 call).at' (.preparingCalls message [])

/-- The outcome of a sequential call, and the next call unless the run is aborted. -/
def nextSequential (state : State π) (message : AssistantMessage π) (finalized : List (Finalized π))
    (outcome : Finalized π) : State π :=
  let acted := state.act (emitToolExecutionEnd ⟨state.turn, finalized.length⟩ outcome :: emitToolResultMessage outcome)
  let finalized := finalized ++ [outcome]
  let done := finishCalls acted message finalized (shouldTerminateToolBatch finalized)
  if state.aborted then done
  else match message.calls[finalized.length]? with
    | none => done
    | some call => (startCall acted finalized.length call).at' (.sequential message finalized .preparing)

/-- The results of a parallel batch are emitted in call order when all of them are there. -/
def collectParallel (state : State π) (message : AssistantMessage π) (stages : List (Stage π)) : State π :=
  let finalized := stages.filterMap Stage.outcome?
  if finalized.length = stages.length then
    finishCalls (state.act (finalized.flatMap emitToolResultMessage)) message finalized
      (shouldTerminateToolBatch finalized)
  else state.at' (.running message stages)

/-- The next call of a parallel batch is prepared unless the run is aborted. -/
def nextParallel (state : State π) (message : AssistantMessage π) (stages : List (Stage π)) : State π :=
  if state.aborted then collectParallel state message stages
  else match message.calls[stages.length]? with
    | none => collectParallel state message stages
    | some call => (startCall state stages.length call).at' (.preparingCalls message stages)

/-! ### Steps -/

/-- What `finishTurn` decides. -/
inductive Decision
  | none
  | «end»
  | «continue»
deriving DecidableEq

/-- `late` is an abort after a call's preparation and before the loop looks for one again. -/
inductive Input (π : Type u)
  | abort
  | poll (messages : List (Given π))
  | prepareNextTurn (context : Option (Context π)) (messages : List (Given π))
  | prepareRequest (context : Option (Context π))
  | responseStart (message : AssistantMessage π)
  | responseUpdate (message : AssistantMessage π)
  | response (message : AssistantMessage π)
  | checked (checked : Checked) (late : Bool)
  | launch
  | update (key : CallKey) (partialResult : ToolResult π)
  | executed (index : Nat) (outcome : Outcome π)
  | after (index : Nat) (after : After π)
  | finishTurn (decision : Decision)

/-- Messages taken from a queue. -/
def take (state : State π) (messages : List (Given π)) : State π :=
  let queued := messages.map (Given.toMessage .queued)
  { state with pending := queued, taken := state.taken ++ queued }

/-- The end of a response: it is answered by its tool calls, if it has any and did not fail. -/
def endResponse (sequential : Bool) (state : State π) (started : Bool) (message : AssistantMessage π) : State π :=
  let emitted : List (Action π) :=
    if started then [.emit (.messageEnd (.assistant message))] else emitMessage (.assistant message)
  let added := { state.act emitted with
    context := { state.context with messages := state.context.messages ++ [.assistant message] }
    messages := state.messages ++ [.assistant message]
    turn := state.turn + 1 }
  if message.stopReason = .error ∨ message.stopReason = .aborted then added.at' (.finishing message [] false)
  else match message.calls with
    | [] => added.at' (.finishing message [] false)
    | call :: _ =>
      if message.stopReason = .length then failToolCallsFromTruncatedMessage added message
      else executeToolCalls sequential added message call

def endRun (state : State π) : State π := (state.act [.emit (.agentEnd state.messages)]).at' .ended

/-- The end of a turn; a failed response, and the hook, end the run. -/
def endTurn (state : State π) (message : AssistantMessage π) (toolResults : List (ToolResultMessage π))
    (hasMoreToolCalls : Bool) (decision : Decision) : State π :=
  let acted := state.act [.emit (.turnEnd message toolResults)]
  if message.stopReason = .error ∨ message.stopReason = .aborted then endRun acted
  else match decision with
    | .end => endRun acted
    | .none => acted.at' (.polling hasMoreToolCalls false)
    | .continue => acted.at' (.polling hasMoreToolCalls true)

/-- One step; `none` when the loop does not wait for the input. -/
def step [DecidableEq π] (sequential : Bool) (state : State π) (input : Input π) : Option (State π) :=
  match input, state.phase with
  | .abort, _ => some { state with aborted := true }
  | .update key partialResult, _ =>
    if key.turn = state.turn ∧ (state.phase.stages[key.index]?.any Stage.isExecuting) then
      match state.phase with
      | .sequential message .. | .running message _ => (message.calls[key.index]?).map fun call =>
        state.act [.emit (.toolExecutionUpdate key call partialResult)]
      | _ => none
    else some state
  | .poll messages, .steering => some (processPending (take state messages) [])
  | .prepareNextTurn context messages, .preparingTurn =>
    let next := { state with context := context.getD state.context }
    let prepared := messages.map (Given.toMessage .prepared)
    if next.pending.isEmpty then some (next.at' (.steeringAgain prepared))
    else some (processPending (next.act [.emit .turnStart]) prepared)
  | .poll messages, .steeringAgain prepared =>
    some (processPending ((take state messages).act [.emit .turnStart]) prepared)
  | .prepareRequest context, .requesting =>
    some ({ state with context := context.getD state.context }.at' (.streaming false))
  | .responseStart message, .streaming false =>
    some ((state.act [.emit (.messageStart (.assistant message))]).at' (.streaming true))
  | .responseUpdate message, .streaming started =>
    if started then some (state.act [.emit (.messageUpdate (.assistant message))]) else some state
  | .response message, .streaming started => some (endResponse sequential state started message)
  | .checked checked late, .sequential message finalized .preparing =>
    (message.calls[finalized.length]?).map fun call =>
      let key : CallKey := ⟨state.turn, finalized.length⟩
      match prepareToolCall state.context.tools state.aborted call checked with
      | .prepared =>
        ((state.act [.judged key .ready, .execute key]).abortIf late).at' (.sequential message finalized .executing)
      | .immediate verdict result =>
        nextSequential ((state.act [.judged key verdict]).abortIf late) message finalized ⟨call, result, true⟩
  | .executed index outcome, .sequential message finalized .executing =>
    if index = finalized.length then
      some (state.at' (.sequential message finalized (executePreparedToolCall outcome)))
    else none
  | .after index after, .sequential message finalized (.finalizing result isError) =>
    if index = finalized.length then
      (message.calls[index]?).map fun call =>
        nextSequential state message finalized (finalizeExecutedToolCall call result isError after)
    else none
  | .checked checked late, .preparingCalls message stages =>
    (message.calls[stages.length]?).map fun call =>
      let key : CallKey := ⟨state.turn, stages.length⟩
      match prepareToolCall state.context.tools state.aborted call checked with
      | .prepared => nextParallel ((state.act [.judged key .ready]).abortIf late) message (stages ++ [.waiting])
      | .immediate verdict result =>
        let outcome : Finalized π := ⟨call, result, true⟩
        nextParallel ((state.act [.judged key verdict, emitToolExecutionEnd key outcome]).abortIf late) message
          (stages ++ [.finalized outcome])
  | .launch, .running message stages =>
    (stages.findIdx? Stage.isWaiting).bind fun index => (message.calls[index]?).map fun call =>
      let key : CallKey := ⟨state.turn, index⟩
      if state.aborted then
        let outcome : Finalized π := ⟨call, createErrorToolResult (js "Operation aborted".toList), true⟩
        collectParallel (state.act [emitToolExecutionEnd key outcome]) message (stages.set index (.finalized outcome))
      else (state.act [.execute key]).at' (.running message (stages.set index .executing))
  | .executed index outcome, .running message stages =>
    if stages.any Stage.isWaiting then none
    else match stages[index]? with
      | some .executing => some (state.at' (.running message (stages.set index (executePreparedToolCall outcome))))
      | _ => none
  | .after index after, .running message stages =>
    match stages[index]? with
    | some (.finalizing result isError) => (message.calls[index]?).map fun call =>
      let outcome := finalizeExecutedToolCall call result isError after
      collectParallel (state.act [emitToolExecutionEnd ⟨state.turn, index⟩ outcome]) message
        (stages.set index (.finalized outcome))
    | _ => none
  | .finishTurn decision, .finishing message toolResults hasMoreToolCalls =>
    some (endTurn state message toolResults hasMoreToolCalls decision)
  | .poll messages, .polling hasMoreToolCalls explicitContinuation =>
    let taken := take state messages
    if hasMoreToolCalls || !messages.isEmpty then some (taken.at' .preparingTurn)
    else some (taken.at' (.followUps explicitContinuation))
  | .poll messages, .followUps explicitContinuation =>
    let taken := take state messages
    if !messages.isEmpty then some (taken.at' .preparingTurn)
    else if explicitContinuation then some (taken.at' .preparingTurn)
    else some (endRun taken)
  | _, _ => none

/-- The start of `runAgentLoop`. -/
def runAgentLoop [DecidableEq π] (prompts : List (Given π)) (context : Context π) : State π :=
  let initialMessages := declareToolChanges context (prompts.map (Given.toMessage .prompt))
  let state : State π := ⟨context, [], [], 0, false, .steering, [.emit .agentStart, .emit .turnStart], []⟩
  addMessages state initialMessages

/-- The start of `runAgentLoopContinue`, which refuses a context that ends in a response. -/
def runAgentLoopContinue (context : Context π) : Option (State π) :=
  match context.messages.getLast? with
  | none => none
  | some message =>
    if message.isAssistant then none
    else some ⟨context, [], [], 0, false, .steering, [.emit .agentStart, .emit .turnStart], []⟩

end Hummin.AgentLoop
