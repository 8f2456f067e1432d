import MinionAgent.AgentLoop.RunState
import MinionAgent.Library.Program

/-!
# MinionAgent.AgentLoop.Driver

The agent loop (`agent_loop/driver.py`): `_execute_run` and what it calls.

Whatever a run waits for — listeners, the provider's stream, tools, other code
that runs meanwhile — is a reply of its `LoopEnvironment`: it may use the agent
in any way, hold the run's context, and raise (but not while calls of a batch
run side by side).

* `runStep` — one request and its tools;
* `turns`, `runInner` — the loops over turns and continuations;
* `executeRun` — one run, from `AGENT_START` to `AGENT_END`;
* `scriptedRun` — a run in surroundings that are scripted.

The loops have fuel.  The actions so far are part of the state, so what a run
does can be told of runs that raise and of runs that never end.
-/

namespace MinionAgent

open Py

/-! ## What surrounds a run -/

/-- What came of waiting: what other code did, what became of a context that
it holds, and an answer or an exception. -/
structure Reply (W α : Type) where
  /-- What the run cannot see, as it is after the wait. -/
  world : W
  /-- What other code did with the agent, in order. -/
  actions : List AgentAction := []
  /-- The run's context, where somebody who holds it changed it. -/
  context : Option RunContext := none
  outcome : Except Failure α

/-- What a prompt assembler returns. -/
inductive Assembled
  | text (text : String)
  /-- No string. -/
  | other (typeName : String)

/-- Several calls of a batch that run side by side are unfinished. -/
def Batch.sideBySide (batch : Batch) : Bool :=
  batch.gathered && 1 < (batch.stages.countP fun stage => stage.completed?.isNone)

/-- Everything that a run calls and waits for, over what it cannot see. -/
structure LoopEnvironment (W : Type) extends LoopSetting where
  /-- How follow-ups are claimed. -/
  nextTurnPolicy : ClaimPolicy := .oneAtATime
  /-- How steering messages are claimed. -/
  nextStepPolicy : ClaimPolicy := .oneAtATime
  /-- `str` of an exception. -/
  str : Failure → String
  /-- What `json.dumps` raises for schemas that are no JSON. -/
  dumpsError : List ToolSchema → String
  /-- `_now_ms`. -/
  now : W → Int
  /-- The tools that the agent's scope has when the run begins. -/
  visibleTools : W → AgentInstance → List ToolDefinition
  /-- A tool that a result adds, by its name. -/
  resolveTool : W → RunState → String → Option ToolDefinition
  /-- The agent's scope is disposed, so that no tool has a mode. -/
  scopeDisposed : W → Bool
  /-- The listeners of an event, awaited one after the other. -/
  listen : AgentEvent → W → RunState → Reply W Unit
  /-- The dispatch of `AGENT_PRE_STEP`. -/
  preStep : PreStepReason → List Message → W → RunState → Reply W (PreStepDecision Message)
  /-- The dispatch of `AGENT_PREPARE_NEXT_TURN`. -/
  prepareNextTurn : AssistantMessage → List Message → W → RunState → Reply W RunConfigUpdate
  /-- The dispatch of `AGENT_TURN_STOPPING`. -/
  turnStopping : AssistantMessage → List Message → W → RunState → Reply W (Option TurnStopping)
  /-- The prompt assembler, if one is configured. -/
  promptAssembler : Option (W → RunState → Reply W Assembled) := none
  /-- The dispatch of `AGENT_TRANSFORM_CONTEXT`. -/
  transformContext : List Message → W → RunState → Reply W (List Message)
  /-- `llm.stream`, which resolves the model. -/
  stream : Request → W → RunState → Reply W Unit
  /-- The next chunk of the adapter's stream, or how it ends. -/
  pull : Request → W → RunState → Reply W (StreamChunk ⊕ SourceEnding)
  /-- What happens next in a batch. -/
  schedule : Batch → W → RunState → Reply W BatchEvent
  /-- Nothing raises while calls of a batch run side by side: the other calls
  would go on beside the end of the run. -/
  alone : ∀ (batch : Batch) (world : W) (run : RunState) (failure : Failure),
    (schedule batch world run).outcome = .error failure → batch.sideBySide = false

/-- Why a run stops short. -/
inductive Stop
  | failure (failure : Failure)
  | outOfFuel

/-- A run with its surroundings, and the actions that brought it here: `run` is
what they come to. -/
structure LoopState (W : Type) where
  world : W
  run : RunState
  actions : List LoopAction := []

/-- A part of the agent loop: it changes the state, and returns or stops. -/
abbrev Driver (W α : Type) : Type := Program (LoopState W) Stop α

/-! ## Texts and messages -/

/-- What a rejected append raises.  The names of a run's entries are valid,
and its agent has a log. -/
def appendFailure : SessionError → Failure
  | .notJsonSafe message => .exception message
  | _ => .exception ""

/-- `history[-window:]`, whose start is counted from the end, so that a window of
zero keeps everything. -/
def windowed (window : Option ℤ) (history : List Message) : List Message :=
  match window with
  | none => history
  | some window => sliceFrom history (-window)

/-- The message that a failure is settled with: an empty text under the agent's
model, aborted if the signal is. -/
def RunState.failureMessage (s : RunState) (text : String) : AssistantMessage where
  content := [.text { text := "" }]
  stopReason := if s.agent.controller = some true then .aborted else .error
  usage := {}
  model := s.agent.model.model
  provider := s.agent.model.provider
  timestamp := 0
  errorMessage := some text

/-! ## Tools -/

/-- How the calls of a reply are executed: none after a length stop, one after
the other where one of the tools asks for it. -/
def batchMode (reply : AssistantMessage) (tools : List ToolDefinition) (disposed : Bool) : BatchMode :=
  let modeOf (name : String) :=
    if disposed then none else (tools.find? fun definition => definition.name == name).bind ToolDefinition.mode
  if reply.stopReason = .length then .lengthStop
  else if isSequential modeOf .parallel reply.toolCalls then .sequential
  else .parallel

/-- What an event comes to: it reads the signal as it is, and exactly the calls
of tools that the run does not know are unknown. -/
def Batch.take (batch : Batch) (tools : List ToolDefinition) (aborted : Bool) (event : BatchEvent) :
    Option (BatchEvent × Batch) := do
  let event ← match event with
    | .decide i _ answer =>
      if batch.calls[i]?.any fun call => tools.any fun definition => definition.name == call.name then
        if answer = .unknown then none else some (.decide i aborted answer)
      else
        some (.decide i aborted .unknown)
    | .complete i _ => some (.complete i aborted)
    | event => some event
  return (event, ← batch.step event)

/-- What the hooks of a batch do: `on_execution_start`, `on_execution_update`
and `on_execution_end`. -/
def BatchItem.effects (calls : List ToolCallBlock) (pending : List String) (item : BatchItem) : List LoopEffect :=
  match calls[item.call]? with
  | none => []
  | some call =>
    match item with
    | .started _ =>
      [.write (.setPendingToolCalls (if pending.contains call.id then pending else pending ++ [call.id])),
        .dispatch (.toolExecutionStart call.id call.name call.arguments.orderRaw)]
    | .updated _ report => [.dispatch (.toolExecutionUpdate call.id call.name call.arguments.orderRaw report)]
    | .ended _ result =>
      [.write (.setPendingToolCalls (pending.filter fun id => id ≠ call.id)),
        .dispatch (.toolExecutionEnd call.id call.name result result.isError)]
    | .executing _ | .completed _ => []

/-- What the hooks do as a batch takes a step. -/
def Batch.hooks (batch next : Batch) (pending : List String) : List LoopEffect :=
  next.items[batch.items.length]?.elim [] (BatchItem.effects batch.calls pending)

/-- The tools that a result adds to those that are known, each name once; a name
that resolves to nothing is passed over. -/
def newlyVisible (resolve : String → Option ToolDefinition) : List String → List String → List ToolDefinition
  | _, [] => []
  | known, name :: names =>
    if known.contains name then
      newlyVisible resolve known names
    else
      match resolve name with
      | none => newlyVisible resolve known names
      | some definition => definition :: newlyVisible resolve (known ++ [name]) names

/-- What came of one turn. -/
structure StepResult where
  /-- The reply. -/
  message : AssistantMessage
  toolResults : List Message
  /-- Tools ran, and the model is to see their results. -/
  hasMoreToolCalls : Bool
  /-- Every result of the batch terminates. -/
  hardTerminated : Bool
  /-- The reply is an error or aborted, which ends the run. -/
  terminal : Bool

/-- What a pre-step decision says of the request. -/
structure Shape where
  systemOverride : Option String := none
  historyWindow : Option ℤ := none

/-- Why a run ends, with a detail. -/
structure RunEnding where
  reason : String
  detail : Option String := none

namespace LoopEnvironment

variable {W α : Type} (env : LoopEnvironment W)

/-! ## Operations -/

/-- One action: it is recorded, and changes the run as `RunState.apply` says. -/
def act (action : LoopAction) : Driver W Unit :=
  modify fun s => { s with run := s.run.apply env.toLoopSetting action, actions := s.actions ++ [action] }

/-- Wait for an answer.  What other code did meanwhile stays done when it
raises. -/
def ask (question : W → RunState → Reply W α) : Driver W α := do
  let s ← get
  let reply := question s.world s.run
  modify fun s => { s with world := reply.world }
  env.act (.answered reply.actions reply.context)
  match reply.outcome with
  | .ok answer => return answer
  | .error failure => throw (.failure failure)

/-- A write to the agent. -/
def write (action : AgentAction) : Driver W Unit := env.act (.own (.write action))

/-- `log.append`, which checks the entry's data and raises if it is not JSON. -/
def log (entry : LoopEntry) : Driver W Unit := do
  let s ← get
  match s.run.accepts entry with
  | .ok _ => env.act (.own (.log entry))
  | .error e => throw (.failure (appendFailure e))

/-- `_dispatch_agent_event`. -/
def dispatchAgentEvent (event : AgentEvent) : Driver W Unit := do
  env.act (.own (.dispatch event))
  env.ask (env.listen event)

/-- `inbox.claim`: what the policy takes leaves the queue at once. -/
def claim (target : InboxTarget) (policy : ClaimPolicy) : Driver W (List InputEnvelope) := do
  let s ← get
  let envelopes := (s.run.agent.inbox.claim target policy).1
  env.act (.claimed target policy envelopes)
  return envelopes

/-- `_pre_step`: the listeners may enter other messages, or reject. -/
def askPreStep (messages : List Message) (reason : PreStepReason) : Driver W (PreStepDecision Message) := do
  let decision ← env.ask (env.preStep reason messages)
  env.act (.decided messages reason decision)
  return decision

/-! ## Messages -/

/-- The two events of a message that is complete, with its log entry between
them. -/
def passMessage (message : Message) (entry : LoopEntry) : Driver W Unit := do
  env.write (.setStreamingMessage (some message))
  env.dispatchAgentEvent (.messageStart message)
  env.write (.setStreamingMessage none)
  env.log entry
  env.dispatchAgentEvent (.messageEnd message)
  env.act (.own (.newMessage message))

/-- `_admit_messages`: user messages are passed in order. -/
def admitMessages (messages : List Message) : Driver W Unit :=
  messages.forM fun message => env.passMessage message (.userMessage message)

/-- The start of a turn. -/
def startTurn (reason : PreStepReason) : Driver W Unit := do
  env.log (.turnStart reason)
  env.dispatchAgentEvent .turnStart

/-- The start of a turn other than the first. -/
def startLaterTurn (openTurn : Bool) (reason : PreStepReason) : Driver W Unit :=
  if openTurn then env.startTurn reason else pure ()

/-- The error of a reply.  An empty text counts as none. -/
def noteError (reply : AssistantMessage) : Driver W Unit :=
  if reply.errorMessage.getD "" = "" then pure () else env.write (.setErrorMessage reply.errorMessage)

/-- The end of a turn. -/
def endTurn (reply : AssistantMessage) (toolResults : List Message) : Driver W Unit := do
  env.noteError reply
  env.log (.turnEnd none)
  env.dispatchAgentEvent (.turnEnd (some (.assistant reply)) toolResults)

/-! ## One request -/

/-- `_system_text`.  An exception of the assembler keeps its text and is no
other kind of exception any more. -/
def systemText (shape : Shape) : Driver W String := do
  let s ← get
  let text ← match shape.systemOverride, env.promptAssembler with
    | some text, _ => pure text
    | none, none => pure s.run.context.systemPrompt
    | none, some assembler => do
      let assembled ← tryCatch (env.ask assembler) fun stop =>
        match stop with
        | .failure failure =>
          throw (.failure (if failure.isException then .exception (env.str failure) else failure))
        | .outOfFuel => throw .outOfFuel
      match assembled with
      | .text text => pure text
      | .other typeName =>
        throw (.failure (.exception s!"prompt assembler returned {typeName}, not a string (L08-D001)"))
  env.act (.prompted text)
  return text

/-- `record_header`: the prompt and the schemas go to the store before the entry
that names them is logged. -/
def recordHeader (text : String) (schemas : List ToolSchema) : Driver W Unit := do
  let s ← get
  let components := [("system_base", text)]
  env.act (.own (.store text))
  match toolsPayload schemas with
  | none => throw (.failure (.exception (env.dumpsError schemas)))
  | some payload => do
    env.act (.own (.store payload))
    env.log (.requestHeader (headerData env.sha256 components s.run.config.model.model payload))

/-- `_transform_context`: what the provider sees; the run keeps its history. -/
def transform (history : List Message) : Driver W (List Message) := do
  env.act (.transforming history)
  let messages ← env.ask (env.transformContext history)
  env.act (.transformed history messages)
  return messages

/-- The next chunk of a settled stream.  A source that ends, or fails, before its
terminal is settled with one. -/
def pullChunk (request : Request) (soFar : Option AssistantMessage) : Driver W StreamChunk := do
  let chunk ← match ← env.ask (env.pull request) with
    | .inl chunk => pure chunk
    | .inr ending =>
      match (settledFrom request ending () soFar []).head? with
      | some (_, chunk) => pure chunk
      | none => throw (.failure .base)
  env.act (.received chunk)
  return chunk

/-- The chunks of a reply up to its terminal: the reply, and whether the stream
gave a start. -/
def receive (request : Request) : ℕ → Option AssistantMessage → Bool → Driver W (AssistantMessage × Bool)
  | 0, _, _ => throw .outOfFuel
  | fuel + 1, soFar, opened => do
    match ← env.pullChunk request soFar with
    | .start message => do
      env.write (.setStreamingMessage (some (.assistant message)))
      env.log (.streamStart message)
      env.dispatchAgentEvent (.messageStart (.assistant message))
      receive request fuel (some message) true
    | .update event => do
      env.write (.setStreamingMessage (some (.assistant event.message)))
      env.log (.chunk event)
      env.dispatchAgentEvent (.messageUpdate event (.assistant event.message))
      receive request fuel (some event.message) opened
    | .done message _ => return (message, opened)
    | .error _ message _ => return (message, opened)

/-- The end of a reply's message, with its start if the stream gave none. -/
def finishReply (reply : AssistantMessage) (opened : Bool) : Driver W Unit := do
  if opened then
    env.write (.setStreamingMessage none)
    env.log (.assistantMessage reply)
    env.dispatchAgentEvent (.messageEnd (.assistant reply))
    env.act (.own (.newMessage (.assistant reply)))
  else
    env.passMessage (.assistant reply) (.assistantMessage reply)

/-! ## The tools of a reply -/

/-- A batch, until it has an outcome. -/
def runBatch (tools : List ToolDefinition) : ℕ → Batch → Driver W BatchOutcome
  | 0, _ => throw .outOfFuel
  | fuel + 1, batch => do
    let event ← env.ask (env.schedule batch)
    match batch.outcome? with
    | some outcome => return outcome
    | none => do
      let s ← get
      match batch.take tools (s.run.agent.controller == some true) event with
      | none => runBatch tools fuel batch
      | some (event, next) => do
        env.act (.stepped event)
        (batch.hooks next s.run.agent.pendingToolCalls).forM fun effect => env.act (.own effect)
        runBatch tools fuel next

/-- One result: its message, and the tools it adds. -/
def reportResult (outcome : BatchOutcome) (result : ToolResult) : Driver W Message := do
  let s ← get
  let message := result.toMessage (env.now s.world)
  env.act (.reported message)
  env.passMessage (.toolResult message)
    (.toolResult message (outcome.completionIndex result.toolCallId) result.addedToolNames result.terminate)
  let s ← get
  let known := s.run.context.tools.map ToolDefinition.name
  env.act (.added (newlyVisible (env.resolveTool s.world s.run) known result.addedToolNames))
  return .toolResult message

/-- The results of a batch, in source order. -/
def reportResults (outcome : BatchOutcome) : List ToolResult → Driver W (List Message)
  | [] => return []
  | result :: results => do
    let message ← env.reportResult outcome result
    return message :: (← reportResults outcome results)

/-- The calls of a reply: all are logged first, then run as one batch, whose
results are reported in source order. -/
def runTools (fuel : ℕ) (reply : AssistantMessage) : Driver W StepResult := do
  reply.toolCalls.forM fun call => env.log (.toolCall call)
  if reply.toolCalls = [] then
    env.endTurn reply []
    return {
      message := reply, toolResults := [], hasMoreToolCalls := false, hardTerminated := false, terminal := false }
  else
    let s ← get
    let mode := batchMode reply s.run.context.tools (env.scopeDisposed s.world)
    env.act (.began mode)
    let outcome ← env.runBatch s.run.context.tools fuel { calls := reply.toolCalls, mode }
    let toolResults ← env.reportResults outcome outcome.results
    env.act (.resulted toolResults)
    env.endTurn reply toolResults
    return {
      message := reply, toolResults, hasMoreToolCalls := !outcome.terminate, hardTerminated := outcome.terminate,
      terminal := false }

/-! ## One turn -/

/-- The request of a turn, and its reply: the header is recorded before the
context is transformed, and the stream is asked for last. -/
def request (fuel : ℕ) (shape : Shape) : Driver W (AssistantMessage × Bool) := do
  let text ← env.systemText shape
  let s ← get
  let schemas := s.run.context.tools.map ToolDefinition.schema
  env.recordHeader text schemas
  let s ← get
  let messages ← env.transform (windowed shape.historyWindow s.run.context.messages)
  let s ← get
  let request : Request :=
    { model := s.run.config.model, system := assembleSystem [("system_base", text)], messages, tools := schemas,
      signal := s.run.agent.controller }
  env.act (.requested request)
  env.ask (env.stream request)
  env.receive request fuel none false

/-- `_run_step`: a reply that failed ends its turn without tools. -/
def runStep (fuel : ℕ) (shape : Shape) (reason : PreStepReason) (openTurn : Bool) : Driver W StepResult := do
  env.startLaterTurn openTurn reason
  let (reply, opened) ← env.request fuel shape
  env.finishReply reply opened
  if reply.failed then
    env.endTurn reply []
    return { message := reply, toolResults := [], hasMoreToolCalls := false, hardTerminated := false, terminal := true }
  else
    env.runTools fuel reply

/-! ## Turns -/

/-- `_prepare_next_turn`: an update replaces context, model or thinking level of
what follows. -/
def prepareNext (result : StepResult) : Driver W Unit := do
  let update ← env.ask (env.prepareNextTurn result.message result.toolResults)
  env.act (.updated update)

/-- `_should_stop`: the dispatch leaves the last listener's value, which is
resolved alone. -/
def askStopping (result : StepResult) : Driver W Bool := do
  match ← env.ask (env.turnStopping result.message result.toolResults) with
  | none => return false
  | some decision => return resolveStopping [decision] == .stop

/-- The decision about the input of a turn: a rejection ends the run. -/
def decideEntry (messages : List Message) (reason : PreStepReason) (next : Shape → Driver W RunEnding) :
    Driver W RunEnding := do
  match ← env.askPreStep messages reason with
  | .reject detail => return { reason := "rejected", detail }
  | .enter messages systemOverride historyWindow =>
    env.admitMessages messages
    next { systemOverride, historyWindow }

/-- The turns of a run, from a decision on.  Each continuation that follow-ups
trigger goes on in the same way. -/
def turns : ℕ → Shape → PreStepReason → Bool → Driver W RunEnding
  | 0, _, _, _ => throw .outOfFuel
  | fuel + 1, shape, reason, openTurn => do
    let result ← env.runStep fuel shape reason openTurn
    if result.terminal then
      return { reason := result.message.stopReason.value }
    else
      env.prepareNext result
      if ← env.askStopping result then
        return { reason := "stopped" }
      else
        let stepInput ← env.claim .nextStep env.nextStepPolicy
        if !result.hasMoreToolCalls && stepInput.isEmpty then
          let followups ← env.claim .nextTurn env.nextTurnPolicy
          if followups.isEmpty then
            return { reason := if result.hardTerminated then "terminated" else "completed" }
          else
            env.act (.extended (followups.map fun envelope => envelope.cause.value))
            env.decideEntry (followups.map InputEnvelope.message) .nextTurn fun shape =>
              turns fuel shape .nextTurn true
        else
          let reason := if stepInput.isEmpty then PreStepReason.toolResults else .steering
          env.decideEntry (stepInput.map InputEnvelope.message) reason fun shape => turns fuel shape reason true

/-- `_run_inner`: the messages that begin the run, then the steering messages
that wait already, unless their poll is skipped. -/
def runInner (fuel : ℕ) (begun : Begun) : Driver W RunEnding := do
  env.startTurn .initial
  env.decideEntry begun.entering .initial fun shape => do
    if begun.skipInitialSteeringPoll then
      env.turns fuel shape .initial false
    else
      let steering ← env.claim .nextStep env.nextStepPolicy
      if steering.isEmpty then
        env.turns fuel shape .initial false
      else
        env.decideEntry (steering.map InputEnvelope.message) .steering fun shape => env.turns fuel shape .initial false

/-! ## One run -/

/-- The end of a run that did not fail. -/
def endRun (ending : RunEnding) : Driver W Unit := do
  env.act (.ended ending.reason ending.detail)
  let s ← get
  env.write (.setStreamingMessage none)
  env.log (.agentEnd ending.reason s.run.causes ending.detail none)
  env.dispatchAgentEvent (.agentEnd ending.reason s.run.causes s.run.newMessages)

/-- `_settle_run_failure`: one message with the failure's text is shown and
logged, and ends turn and run. -/
def settleRunFailure (failure : Failure) : Driver W Unit := do
  let text := env.str failure
  env.act (.failed text)
  let s ← get
  let message := s.run.failureMessage text
  env.write (.setStreamingMessage (some (.assistant message)))
  env.dispatchAgentEvent (.messageStart (.assistant message))
  env.write (.setStreamingMessage none)
  env.log (.assistantMessage message)
  env.dispatchAgentEvent (.messageEnd (.assistant message))
  env.write (.setErrorMessage (some text))
  env.log (.turnEnd (some (.assistant message)))
  env.dispatchAgentEvent (.turnEnd (some (.assistant message)) [])
  env.log (.agentEnd "failed" s.run.causes none (some [.assistant message]))
  env.dispatchAgentEvent (.agentEnd "failed" s.run.causes [.assistant message])

/-- The `try` of `_execute_run`.  A model that is not there and what is no
`Exception` are raised. -/
def runGuarded (fuel : ℕ) (begun : Begun) : Driver W Unit :=
  tryCatch
    (do
      let s ← get
      env.log (.agentStart s.run.causes)
      env.dispatchAgentEvent (.agentStart s.run.causes)
      let ending ← env.runInner fuel begun
      env.endRun ending)
    fun stop =>
      match stop with
      | .failure (.unknownModel message) => throw (.failure (.unknownModel message))
      | .failure failure => if failure.isException then env.settleRunFailure failure else throw (.failure failure)
      | .outOfFuel => throw .outOfFuel

/-- A run at its start: the snapshots it is begun with. -/
def start (begun : Begun) (world : W) (agent : AgentInstance) (artifacts : ArtifactStore) (messages : List Message) :
    LoopState W where
  world
  run := {
    agent
    artifacts
    context := { systemPrompt := agent.systemPrompt, messages, tools := env.visibleTools world agent }
    config := { model := agent.model, thinkingLevel := agent.thinkingLevel }
    causes := begun.causes.map Cause.value }

/-- `_execute_run`: how the run ends, if the transcript derives. -/
def executeRun (fuel : ℕ) (begun : Begun) (world : W) (agent : AgentInstance) (artifacts : ArtifactStore) :
    Option (Except Stop Unit × LoopState W) := do
  return Program.exec (env.runGuarded fuel begun) (env.start begun world agent artifacts (← agent.messages))

end LoopEnvironment

/-! ## Scripted surroundings -/

/-- Nothing else happens while a run waits. -/
def Reply.quiet {W α : Type} (answer : α) (world : W) (_ : RunState) : Reply W α := { world, outcome := .ok answer }

/-- The only tool, whose calls are not executed side by side. -/
def echoTool : ToolDefinition where
  schema := { name := "echo", description := "", parameters := [] }
  mode := some .sequential

/-- The next event of a batch whose calls all succeed, one after the other. -/
def Batch.eager (batch : Batch) : BatchEvent :=
  match batch.stages.zipIdx.find? fun numbered => numbered.1.completed?.isNone with
  | some (.preflight, i) => .decide i false (.decided (.proceed []))
  | some (.prepared, i) => .execute i
  | some (.executing, i) => .settle i (.value "done")
  | some (.executed result, i) => .finish i (.ok result)
  | some (.ending _, i) => .complete i false
  | some (.completed _, _) | none => .start

/-- Nobody listens, and the model gives the replies that are left. -/
def LoopEnvironment.scripted : LoopEnvironment (List AssistantMessage) where
  uuid n := String.ofList (List.replicate n 'x')
  sha256 raw := String.ofList (raw.data.toList.map fun byte => Char.ofNat byte.toNat)
  str _ := "failure"
  dumpsError _ := "no JSON"
  now _ := 0
  visibleTools _ _ := [echoTool]
  resolveTool _ _ _ := none
  scopeDisposed _ := false
  listen _ := .quiet ()
  preStep _ messages := .quiet (.enter messages none none)
  prepareNextTurn _ _ := .quiet {}
  turnStopping _ _ := .quiet none
  transformContext messages := .quiet messages
  stream _ := .quiet ()
  pull _ replies _ :=
    match replies with
    | [] => { world := [], outcome := .ok (.inr .ended) }
    | reply :: rest => { world := rest, outcome := .ok (.inl (.done reply reply)) }
  schedule batch := .quiet batch.eager
  alone _ _ _ _ hraised := by cases hraised

/-- A reply of the scripted model. -/
def scriptedReply (content : List AssistantContentBlock) (stopReason : StopReason) : AssistantMessage where
  content
  stopReason
  usage := {}
  model := "m"
  provider := "p"
  timestamp := 0

/-- A call, and then a text. -/
def scriptedReplies : List AssistantMessage :=
  [scriptedReply [.toolCall { id := "a", name := "echo", arguments := Arguments.adopt [] }] .toolUse,
    scriptedReply [.text { text := "ok" }] .stop]

/-- A prompt, without a steering poll. -/
def scriptedBegun : Begun where
  entering := [.user { content := .text "hello", timestamp := 0 }]
  causes := []
  skipInitialSteeringPoll := true

/-- An agent without history. -/
def scriptedAgent : AgentInstance where
  sessions := Sessions.empty.create "s" .core
  log := 0
  model := ⟨"p", "m", "mock"⟩

/-- A run of the agent. -/
def scriptedRun : Option (Except Stop Unit × LoopState (List AssistantMessage)) :=
  LoopEnvironment.scripted.executeRun 12 scriptedBegun scriptedReplies scriptedAgent {}

/-- The run returns, in a state with a property. -/
def Returns {W : Type} (p : LoopState W → Bool) : Option (Except Stop Unit × LoopState W) → Bool
  | some (.ok _, s) => p s
  | _ => false

theorem exists_of_returns {W : Type} {p : LoopState W → Bool} {ended : Option (Except Stop Unit × LoopState W)}
    (h : Returns p ended = true) : ∃ s, ended = some (.ok (), s) ∧ p s = true := by
  obtain _ | ⟨outcome, s⟩ := ended
  · cases h
  · cases outcome with
    | ok returned => exact ⟨s, rfl, h⟩
    | error stop => cases h

end MinionAgent
