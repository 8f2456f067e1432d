import MinionAgent.Agent.Projection
import MinionAgent.AgentLoop.Decisions
import MinionAgent.AgentLoop.Entry
import MinionAgent.Session.Amend
import MinionAgent.Session.RequestHeader
import MinionAgent.Tools.Batch

/-!
# MinionAgent.AgentLoop.RunState

What one run keeps and does (`agent_loop/driver.py`, `agent/decisions.py`).

* `LoopEntry` — the log entries of a run, with their kinds and data;
* `LoopEffect`, `LoopAction` — what a run does, one operation after the other, and
  what other code does while the run waits;
* `RunState.apply` — what an action changes.

A run's state changes by its actions only, so the actions of a run tell every
state that it went through.
-/

namespace MinionAgent

open Py

/-! ## The run's own view -/

/-- What the loop reads of a tool. -/
structure ToolDefinition where
  schema : ToolSchema
  mode : Option ExecutionMode := none
deriving DecidableEq

/-- A tool is known by the name of its schema. -/
def ToolDefinition.name (definition : ToolDefinition) : String := definition.schema.name

/-- `RunContext`: what the provider sees in this run. -/
structure RunContext where
  systemPrompt : String
  messages : List Message
  tools : List ToolDefinition

/-- `RunConfig`. -/
structure RunConfig where
  model : ModelId
  thinkingLevel : ThinkingLevel

/-- `RunConfigUpdate`. -/
structure RunConfigUpdate where
  context : Option RunContext := none
  model : Option ModelId := none
  thinkingLevel : Option ThinkingLevel := none

/-- A value of `PreStepReason`. -/
def PreStepReason.value : PreStepReason → String
  | .initial => "initial"
  | .toolResults => "tool_results"
  | .steering => "steering"
  | .nextTurn => "next_turn"
  | .continuation => "continuation"

/-- A cause as it is logged and reported. -/
def Cause.value (cause : Cause) : Value := .dict [("id", .str cause.id), ("origin", cause.origin)]

/-! ## Log entries -/

/-- What a run logs. -/
inductive LoopEntry
  | agentStart (causes : List Value)
  | agentEnd (reason : String) (causes : List Value) (detail : Option String) (messages : Option (List Message))
  | turnStart (reason : PreStepReason)
  | turnEnd (message : Option Message)
  | streamStart (message : AssistantMessage)
  | chunk (event : AssistantMessageEvent)
  | assistantMessage (message : AssistantMessage)
  | userMessage (message : Message)
  | toolCall (call : ToolCallBlock)
  | toolResult (message : ToolResultMessage) (completionIndex : ℕ) (addedToolNames : List String) (terminate : Bool)
  | requestHeader (data : Dict)

namespace LoopEntry

def kind : LoopEntry → String
  | agentStart _ => EventKind.agentStart
  | agentEnd _ _ _ _ => EventKind.agentEnd
  | turnStart _ => EventKind.turnStart
  | turnEnd _ => EventKind.turnEnd
  | streamStart _ => EventKind.assistantStreamStart
  | chunk _ => EventKind.assistantChunk
  | assistantMessage _ => EventKind.assistantMessage
  | userMessage _ => EventKind.userMessage
  | toolCall _ => EventKind.toolCall
  | toolResult _ _ _ _ => EventKind.toolResult
  | requestHeader _ => EventKind.requestHeader

def data : LoopEntry → Dict
  | agentStart causes => [("causes", .list causes)]
  | agentEnd reason causes detail messages =>
    [("reason", .str reason), ("causes", .list causes)] ++ Value.entry "detail" (detail.map .str) ++
      Value.entry "messages" (messages.map fun messages => .list (messages.map encodeMessage))
  | turnStart reason => [("reason", .str reason.value)]
  | turnEnd message => Value.entry "message" (message.map encodeMessage)
  | streamStart message => [("partial", encodeMessage (.assistant message))]
  | chunk event =>
    [("kind", .str event.kind), ("content_index", .int event.contentIndex),
      ("partial", encodeMessage (.assistant event.message))] ++ Value.entry "delta" (event.delta?.map .str)
  | assistantMessage message => [("message", encodeMessage (.assistant message))]
  | userMessage message => [("message", encodeMessage message)]
  | toolCall call => [("id", .str call.id), ("name", .str call.name), ("arguments", call.arguments.orderRaw)]
  | toolResult message completionIndex addedToolNames terminate =>
    [("message", encodeMessage (.toolResult message)), ("completion_index", .int completionIndex),
      ("added_tool_names", .list (addedToolNames.map .str)), ("terminate", .bool terminate)]
  | requestHeader data => data

end LoopEntry

/-! ## Actions -/

/-- One operation of the run. -/
inductive LoopEffect
  /-- A write to the agent. -/
  | write (action : AgentAction)
  | log (entry : LoopEntry)
  /-- A text is put into the artifact store. -/
  | store (text : String)
  /-- An event goes out to the listeners. -/
  | dispatch (event : AgentEvent)
  /-- A message joins the run's context and its own messages. -/
  | newMessage (message : Message)

/-- What happens in a run. -/
inductive LoopAction
  | own (effect : LoopEffect)
  /-- Other code ran while the run waited; it may hold the run's context. -/
  | answered (actions : List AgentAction) (context : Option RunContext)
  | decided (asked : List Message) (reason : PreStepReason) (decision : PreStepDecision Message)
  | claimed (target : InboxTarget) (policy : ClaimPolicy) (envelopes : List InputEnvelope)
  /-- The causes of claimed follow-ups. -/
  | extended (causes : List Value)
  | prompted (text : String)
  | transforming (given : List Message)
  | transformed (given returned : List Message)
  | requested (request : Request)
  | received (chunk : StreamChunk)
  | began (mode : BatchMode)
  | stepped (event : BatchEvent)
  | reported (message : ToolResultMessage)
  | added (tools : List ToolDefinition)
  | resulted (toolResults : List Message)
  | updated (update : RunConfigUpdate)
  | ended (reason : String) (detail : Option String)
  | failed (text : String)

/-! ## State -/

/-- What a run has. -/
structure RunState where
  agent : AgentInstance
  artifacts : ArtifactStore
  /-- What the run shows the provider; it grows with the run's messages. -/
  context : RunContext
  config : RunConfig
  /-- The causes of the messages that began the run or continued it. -/
  causes : List Value
  /-- The messages that the run has added, in order. -/
  newMessages : List Message := []
  /-- The sequence number of the run's `AGENT_START`. -/
  started : ℕ := 0

/-- What is the same for every run. -/
structure LoopSetting where
  /-- The id drawn after so many others. -/
  uuid : ℕ → String
  /-- The digest that names what is stored. -/
  sha256 : ByteArray → String

namespace RunState

/-- An operation on the agent. -/
def act (setting : LoopSetting) (s : RunState) (action : AgentAction) : RunState :=
  { s with agent := s.agent.act setting.uuid action }

/-- The log takes the entry. -/
def accepts (s : RunState) (entry : LoopEntry) : Except SessionError Sessions :=
  s.agent.sessions.append s.agent.log entry.kind entry.data

/-- What an operation of the run changes. -/
def effect (setting : LoopSetting) (s : RunState) : LoopEffect → RunState
  | .write action => s.act setting action
  | .log entry =>
    { s.act setting (.session (.append s.agent.log entry.kind entry.data)) with
      started :=
        match entry with
        | .agentStart _ => s.agent.sessions.length s.agent.log + 1
        | _ => s.started }
  | .store text => { s with artifacts := s.artifacts.putText setting.sha256 text }
  | .dispatch _ => s
  | .newMessage message =>
    { s with
      context := { s.context with messages := s.context.messages ++ [message] }
      newMessages := s.newMessages ++ [message] }

/-- `causes.extend`: the list is the one that `AGENT_START` was logged with. -/
def extendCauses (s : RunState) (causes : List Value) : RunState :=
  { s with
    causes := s.causes ++ causes
    agent := { s.agent with
      sessions := s.agent.sessions.amend s.agent.log s.started (LoopEntry.agentStart (s.causes ++ causes)).data } }

/-- The override of `prepareNextTurn`. -/
def update (s : RunState) (update : RunConfigUpdate) : RunState :=
  { s with
    context := update.context.getD s.context
    config := ⟨update.model.getD s.config.model, update.thinkingLevel.getD s.config.thinkingLevel⟩ }

/-- What an action changes. -/
def apply (setting : LoopSetting) (s : RunState) : LoopAction → RunState
  | .own effect => s.effect setting effect
  | .answered actions context =>
    { s with agent := s.agent.perform setting.uuid actions, context := context.getD s.context }
  | .claimed target policy _ => s.act setting (.claim target policy)
  | .extended causes => s.extendCauses causes
  | .added tools => { s with context := { s.context with tools := s.context.tools ++ tools } }
  | .updated update => s.update update
  | .decided _ _ _ | .prompted _ | .transforming _ | .transformed _ _ | .requested _ | .received _ | .began _
  | .stepped _ | .reported _ | .resulted _ | .ended _ _ | .failed _ => s

end RunState

end MinionAgent
