import MinionAgent.AgentLoop.Driver

/-!
# MinionAgent.AgentLoop.Protocol

What a run may do, action by action.

A run is at a `Node`, where something decides how it goes on, and on its way
there it has a `Script`: the operations it owes, in order.  A step takes the
next operation of the script, or is a choice at a node whose script is done, or
is a failure, which can come at any point before the settlement of another one.

* `Choice` — what can be decided at a node, and the script that follows;
* `Step`, `Run` — the actions of a run, and the states they lead through.
-/

namespace MinionAgent

namespace Protocol

/-! ## Scripts -/

/-- What comes next. -/
inductive Expected
  | effect (effect : LoopEffect)
  /-- Other code runs while the run waits. -/
  | answer

abbrev Script := List Expected

/-- An event goes out, and its listeners are awaited. -/
def dispatching (event : AgentEvent) : Script := [.effect (.dispatch event), .answer]

def writing (action : AgentAction) : Expected := .effect (.write action)

def logging (entry : LoopEntry) : Expected := .effect (.log entry)

/-- The end of a message. -/
def closing (message : Message) (entry : LoopEntry) : Script :=
  [writing (.setStreamingMessage none), logging entry] ++ dispatching (.messageEnd message) ++
    [.effect (.newMessage message)]

/-- A message that is complete. -/
def passing (message : Message) (entry : LoopEntry) : Script :=
  writing (.setStreamingMessage (some message)) :: dispatching (.messageStart message) ++ closing message entry

def admitting (messages : List Message) : Script :=
  messages.flatMap fun message => passing message (.userMessage message)

def startingTurn (reason : PreStepReason) : Script := logging (.turnStart reason) :: dispatching .turnStart

/-- The end of a turn.  An empty error text counts as none. -/
def endingTurn (reply : AssistantMessage) (toolResults : List Message) : Script :=
  (if reply.errorMessage.getD "" = "" then [] else [writing (.setErrorMessage reply.errorMessage)]) ++
    logging (.turnEnd none) :: dispatching (.turnEnd (some (.assistant reply)) toolResults)

/-- The end of a reply.  The message is started here if its stream gave no
start. -/
def finishing (reply : AssistantMessage) (opened : Bool) : Script :=
  if opened then closing (.assistant reply) (.assistantMessage reply)
  else passing (.assistant reply) (.assistantMessage reply)

def endingRun (s : RunState) (reason : String) (detail : Option String) : Script :=
  [writing (.setStreamingMessage none), logging (.agentEnd reason s.causes detail none)] ++
    dispatching (.agentEnd reason s.causes s.newMessages)

/-- What a failure is settled with. -/
def settling (s : RunState) (text : String) : Script :=
  let message := s.failureMessage text
  writing (.setStreamingMessage (some (.assistant message))) :: dispatching (.messageStart (.assistant message)) ++
    [writing (.setStreamingMessage none), logging (.assistantMessage message)] ++
    dispatching (.messageEnd (.assistant message)) ++
    [writing (.setErrorMessage (some text)), logging (.turnEnd (some (.assistant message)))] ++
    dispatching (.turnEnd (some (.assistant message)) []) ++
    logging (.agentEnd "failed" s.causes none (some [.assistant message])) ::
      dispatching (.agentEnd "failed" s.causes [.assistant message])

/-! ## Nodes -/

/-- Where input is decided about. -/
inductive Stage
  /-- What the run begins with; then steering is polled, or not. -/
  | first (skip : Bool)
  /-- The steering of the first turn. -/
  | steered
  /-- The input of a later turn, which starts with it. -/
  | later
deriving DecidableEq

/-- What a run waits for once its script is done. -/
inductive Node
  | deciding (asked : List Message) (reason : PreStepReason) (stage : Stage)
  | polling (shape : Shape)
  | prompting (shape : Shape)
  /-- The header is written. -/
  | headed (shape : Shape) (text : String) (schemas : List ToolSchema)
  /-- The header cannot be written. -/
  | unwritable
  | transforming (text : String) (schemas : List ToolSchema) (given : List Message)
  | requesting (text : String) (schemas : List ToolSchema) (messages : List Message)
  | streaming (opened : Bool)
  | beginning (reply : AssistantMessage)
  | batching (reply : AssistantMessage) (tools : List ToolDefinition) (batch : Batch)
  | reporting (reply : AssistantMessage) (outcome : BatchOutcome) (rest : List ToolResult) (toolResults : List Message)
  | adding (reply : AssistantMessage) (outcome : BatchOutcome) (result : ToolResult) (rest : List ToolResult)
      (toolResults : List Message)
  | turned (hasMoreToolCalls hardTerminated : Bool)
  | stopping (hasMoreToolCalls hardTerminated : Bool)
  | followups (hardTerminated : Bool)
  | extending (envelopes : List InputEnvelope)
  | ending (ending : RunEnding)
  | over
  /-- A failure is settled. -/
  | settled

/-- No failure is being settled. -/
def Unsettled (node : Node) : Prop := node ≠ .settled

/-- Where an entry leads. -/
def Stage.next (reason : PreStepReason) (shape : Shape) : Stage → Script × Node
  | .first skip => ([], if skip then .prompting shape else .polling shape)
  | .steered => ([], .prompting shape)
  | .later => (startingTurn reason, .prompting shape)

/-- Where a decision leads. -/
def deciding (reason : PreStepReason) (stage : Stage) : PreStepDecision Message → Script × Node
  | .reject detail => ([], .ending { reason := "rejected", detail })
  | .enter messages systemOverride historyWindow =>
    let next := stage.next reason { systemOverride, historyWindow }
    (admitting messages ++ next.1, next.2)

/-- The header of a request, from its text on. -/
def heading (sha256 : ByteArray → String) (s : RunState) (shape : Shape) (text : String) : Script × Node :=
  let schemas := s.context.tools.map ToolDefinition.schema
  match toolsPayload schemas with
  | none => ([.effect (.store text)], .unwritable)
  | some payload =>
    ([.effect (.store text), .effect (.store payload),
      logging (.requestHeader (headerData sha256 [("system_base", text)] s.config.model.model payload))],
      .headed shape text schemas)

/-- The request that a run makes. -/
def requestOf (s : RunState) (text : String) (schemas : List ToolSchema) (messages : List Message) : Request where
  model := s.config.model
  system := assembleSystem [("system_base", text)]
  messages := messages
  tools := schemas
  signal := s.agent.controller

/-- Where a reply leads. -/
def replied (reply : AssistantMessage) : Script × Node :=
  if reply.failed then (endingTurn reply [], .ending { reason := reply.stopReason.value })
  else if reply.toolCalls = [] then (endingTurn reply [], .turned false false)
  else (reply.toolCalls.map fun call => logging (.toolCall call), .beginning reply)

/-- Where a chunk leads. -/
def receiving (opened : Bool) : StreamChunk → Script × Node
  | .start message =>
    (writing (.setStreamingMessage (some (.assistant message))) :: logging (.streamStart message) ::
      dispatching (.messageStart (.assistant message)), .streaming true)
  | .update event =>
    (writing (.setStreamingMessage (some (.assistant event.message))) :: logging (.chunk event) ::
      dispatching (.messageUpdate event (.assistant event.message)), .streaming opened)
  | .done reply _ | .error _ reply _ => (finishing reply opened ++ (replied reply).1, (replied reply).2)

/-- Where a batch is. -/
def batchNode (reply : AssistantMessage) (tools : List ToolDefinition) (batch : Batch) : Node :=
  match batch.outcome? with
  | none => .batching reply tools batch
  | some outcome => .reporting reply outcome outcome.results []

/-- What is claimed is the front of the queue. -/
def Claims (s : RunState) (target : InboxTarget) (policy : ClaimPolicy) (envelopes : List InputEnvelope) : Prop :=
  envelopes = (s.agent.inbox.claim target policy).1

/-! ## Steps -/

/-- A decision at a node, the script that follows and the node after it. -/
inductive Choice (setting : LoopSetting) : Node → RunState → LoopAction → Script → Node → Prop
  | decided {asked reason stage s} (decision : PreStepDecision Message) :
    Choice setting (.deciding asked reason stage) s (.decided asked reason decision)
      (deciding reason stage decision).1 (deciding reason stage decision).2
  | unpolled {shape s policy} (h : Claims s .nextStep policy []) :
    Choice setting (.polling shape) s (.claimed .nextStep policy []) [] (.prompting shape)
  | polled {shape s policy envelopes} (h : Claims s .nextStep policy envelopes) (hsome : envelopes ≠ []) :
    Choice setting (.polling shape) s (.claimed .nextStep policy envelopes) []
      (.deciding (envelopes.map InputEnvelope.message) .steering .steered)
  | prompted {shape s text} (h : ∀ override, shape.systemOverride = some override → text = override) :
    Choice setting (.prompting shape) s (.prompted text) (heading setting.sha256 s shape text).1
      (heading setting.sha256 s shape text).2
  | transforming {shape text schemas s} :
    Choice setting (.headed shape text schemas) s (.transforming (windowed shape.historyWindow s.context.messages)) []
      (.transforming text schemas (windowed shape.historyWindow s.context.messages))
  | transformed {text schemas given s} (returned : List Message) :
    Choice setting (.transforming text schemas given) s (.transformed given returned) []
      (.requesting text schemas returned)
  | requested {text schemas messages s} :
    Choice setting (.requesting text schemas messages) s (.requested (requestOf s text schemas messages)) []
      (.streaming false)
  | received {opened s} (chunk : StreamChunk) :
    Choice setting (.streaming opened) s (.received chunk) (receiving opened chunk).1 (receiving opened chunk).2
  | began {reply s} (disposed : Bool) :
    Choice setting (.beginning reply) s (.began (batchMode reply s.context.tools disposed)) []
      (batchNode reply s.context.tools { calls := reply.toolCalls, mode := batchMode reply s.context.tools disposed })
  | stepped {reply tools batch next s offered event}
      (h : batch.take tools (s.agent.controller == some true) offered = some (event, next)) :
    Choice setting (.batching reply tools batch) s (.stepped event)
      ((batch.hooks next s.agent.pendingToolCalls).map .effect) (batchNode reply tools next)
  | reported {reply outcome result rest toolResults s} (now : Int) :
    Choice setting (.reporting reply outcome (result :: rest) toolResults) s (.reported (result.toMessage now))
      (passing (.toolResult (result.toMessage now))
        (.toolResult (result.toMessage now) (outcome.completionIndex result.toolCallId) result.addedToolNames
          result.terminate))
      (.adding reply outcome result rest (toolResults ++ [.toolResult (result.toMessage now)]))
  | added {reply outcome result rest toolResults s} (resolve : String → Option ToolDefinition) :
    Choice setting (.adding reply outcome result rest toolResults) s
      (.added (newlyVisible resolve (s.context.tools.map ToolDefinition.name) result.addedToolNames)) []
      (.reporting reply outcome rest toolResults)
  | resulted {reply outcome toolResults s} :
    Choice setting (.reporting reply outcome [] toolResults) s (.resulted toolResults) (endingTurn reply toolResults)
      (.turned (!outcome.terminate) outcome.terminate)
  | updated {more hard s} (update : RunConfigUpdate) :
    Choice setting (.turned more hard) s (.updated update) [] (.stopping more hard)
  | stopped {more hard s} :
    Choice setting (.stopping more hard) s (.ended "stopped" none) (endingRun s "stopped" none) .over
  | going {more hard s policy envelopes} (h : Claims s .nextStep policy envelopes)
      (hgoing : (!more && envelopes.isEmpty) = false) :
    Choice setting (.stopping more hard) s (.claimed .nextStep policy envelopes) []
      (.deciding (envelopes.map InputEnvelope.message) (if envelopes.isEmpty then .toolResults else .steering) .later)
  | exhausted {hard s policy} (h : Claims s .nextStep policy []) :
    Choice setting (.stopping false hard) s (.claimed .nextStep policy []) [] (.followups hard)
  | completed {hard s policy} (h : Claims s .nextTurn policy []) :
    Choice setting (.followups hard) s (.claimed .nextTurn policy []) []
      (.ending { reason := if hard then "terminated" else "completed" })
  | followed {hard s policy envelopes} (h : Claims s .nextTurn policy envelopes) (hsome : envelopes ≠ []) :
    Choice setting (.followups hard) s (.claimed .nextTurn policy envelopes) [] (.extending envelopes)
  | extended {envelopes s} :
    Choice setting (.extending envelopes) s (.extended (envelopes.map fun envelope => envelope.cause.value)) []
      (.deciding (envelopes.map InputEnvelope.message) .nextTurn .later)
  | ended {ending s} :
    Choice setting (.ending ending) s (.ended ending.reason ending.detail) (endingRun s ending.reason ending.detail)
      .over

/-- Where a run is. -/
structure Config where
  script : Script
  node : Node
  run : RunState

/-- An append that the log takes; any other operation. -/
def Allowed (s : RunState) : LoopEffect → Prop
  | .log entry => ∃ sessions, s.accepts entry = .ok sessions
  | _ => True

/-- One action. -/
inductive Step (setting : LoopSetting) : Config → LoopAction → Config → Prop
  | effect {effect rest node s} (h : Allowed s effect) :
    Step setting ⟨.effect effect :: rest, node, s⟩ (.own effect) ⟨rest, node, s.apply setting (.own effect)⟩
  | answered {rest node s actions context} :
    Step setting ⟨.answer :: rest, node, s⟩ (.answered actions context)
      ⟨rest, node, s.apply setting (.answered actions context)⟩
  | waited {node s actions context} :
    Step setting ⟨[], node, s⟩ (.answered actions context) ⟨[], node, s.apply setting (.answered actions context)⟩
  | chosen {node node' s action script} (h : Choice setting node s action script node') :
    Step setting ⟨[], node, s⟩ action ⟨script, node', s.apply setting action⟩
  | failed {script node s} (text : String) (h : Unsettled node) :
    Step setting ⟨script, node, s⟩ (.failed text) ⟨settling s text, .settled, s⟩

/-- A run at its start. -/
def begin (begun : Begun) (s : RunState) : Config where
  script :=
    logging (.agentStart s.causes) :: dispatching (.agentStart s.causes) ++ startingTurn .initial
  node := .deciding begun.entering .initial (.first begun.skipInitialSteeringPoll)
  run := s

/-- The actions of a run from a start on, and where they lead. -/
inductive Run (setting : LoopSetting) (c : Config) : List LoopAction → Config → Prop
  | nil : Run setting c [] c
  | step {actions c' action c''} (h : Run setting c actions c') (hstep : Step setting c' action c'') :
    Run setting c (actions ++ [action]) c''

end Protocol

end MinionAgent
