import Mathlib.Data.List.Sort
import MinionAgent.Llm.Service
import MinionAgent.Session.Log
import MinionAgent.Tools.Execute

/-!
# MinionAgent.Agent.Projection

The observable event stream, rebuilt from the log (`agent/projection.py`).

* `AgentEvent` — what an agent's listeners are told;
* `project` — the stream that a log stands for.

Projecting fails (`none`) where the source raises.
-/

namespace MinionAgent

open Py

/-! ## Events -/

/-- `AgentEvent`. -/
inductive AgentEvent
  | agentStart (causes : List Value)
  | agentEnd (reason : String) (causes : List Value) (messages : List Message)
  | turnStart
  | turnEnd (message : Option Message) (toolResults : List Message)
  | messageStart (message : Message)
  | messageUpdate (event : AssistantMessageEvent) (message : Message)
  | messageEnd (message : Message)
  | toolExecutionStart (toolCallId toolName : String) (arguments : Value)
  | toolExecutionUpdate (toolCallId toolName : String) (arguments : Value) (partialResult : ToolPartialResult)
  | toolExecutionEnd (toolCallId toolName : String) (result : ToolResult) (isError : Bool)
deriving DecidableEq

/-- `_tool_result_from_message`. -/
def toolResultFromMessage (message : ToolResultMessage) (terminate : Bool) : ToolResult where
  toolCallId := message.toolCallId
  content := message.content
  toolName := message.toolName
  isError := message.isError
  details := message.details.elim (.dict []) Present.value
  terminate := terminate
  addedToolNames := message.addedToolNames.getD []
  usage := message.usage

/-- `content[index]`; a negative index counts from the end. -/
def contentAt? (message : AssistantMessage) (index : Int) : Option AssistantContentBlock :=
  let start := if index < 0 then (message.content.length : Int) + index else index
  if start < 0 then none else message.content[start.toNat]?

/-- `_assistant_message_event`. -/
def assistantMessageEvent (kind : String) (contentIndex : Int) (message : AssistantMessage) (delta : Option String) :
    Option AssistantMessageEvent := do
  let block ← contentAt? message contentIndex
  if kind = "text_start" then return .textStart contentIndex message
  if kind = "text_delta" then return .textDelta contentIndex (← delta) message
  if kind = "text_end" then
    match block with
    | .text block => return .textEnd contentIndex block.text message
    | _ => none
  if kind = "thinking_start" then return .thinkingStart contentIndex message
  if kind = "thinking_delta" then return .thinkingDelta contentIndex (← delta) message
  if kind = "thinking_end" then
    match block with
    | .thinking block => return .thinkingEnd contentIndex block.thinking message
    | _ => none
  if kind = "toolcall_start" then return .toolCallStart contentIndex message
  if kind = "toolcall_delta" then return .toolCallDelta contentIndex (← delta) message
  if kind = "toolcall_end" then
    match block with
    | .toolCall block => return .toolCallEnd contentIndex block message
    | _ => none
  none

/-! ## Projecting -/

/-- A `tool/result` entry as it is read. -/
structure ResultEntry where
  message : ToolResultMessage
  completionIndex : Int
  terminate : Bool

/-- The data of a `tool/result` entry. -/
def ResultEntry.read (data : Dict) : Option ResultEntry := do
  let message ← decodeMessage (← data.lookup "message")
  return {
    message := ← message.toolResult?
    completionIndex := ← ((data.lookup "completion_index").getD (.int 0)).int?
    terminate := ← ((data.lookup "terminate").getD (.bool false)).bool? }

/-- Entries by where their calls finished. -/
def byCompletion (x y : ResultEntry) : Prop := x.completionIndex ≤ y.completionIndex

instance : DecidableRel byCompletion := fun x y => inferInstanceAs (Decidable (x.completionIndex ≤ y.completionIndex))

/-- The `ToolExecutionEnd` of an entry. -/
def ResultEntry.executionEnd (entry : ResultEntry) : AgentEvent :=
  .toolExecutionEnd entry.message.toolCallId entry.message.toolName
    (toolResultFromMessage entry.message entry.terminate) entry.message.isError

/-- What `project` keeps as it goes through the entries. -/
structure Projector where
  events : List AgentEvent := []
  pendingResults : List ResultEntry := []
  runMessages : List Message := []
  turnMessage : Option Message := none
  turnResults : List Message := []
  streamOpen : Bool := false

namespace Projector

def emit (p : Projector) (events : List AgentEvent) : Projector := { p with events := p.events ++ events }

/-- `emit_message`. -/
def emitMessage (p : Projector) (message : Message) (suppressStart : Bool := false) : Projector :=
  { p.emit ((if suppressStart then [] else [.messageStart message]) ++ [.messageEnd message]) with
    runMessages := p.runMessages ++ [message]
    turnMessage := if message.assistant?.isSome then some message else p.turnMessage }

/-- The message of a tool result, in source order. -/
def emitResult (p : Projector) (message : Message) : Projector :=
  { p.emitMessage message with turnResults := p.turnResults ++ [message] }

/-- `flush_results`. -/
def flushResults (p : Projector) : Projector :=
  let ends := (p.pendingResults.insertionSort byCompletion).map ResultEntry.executionEnd
  let messages := p.pendingResults.map fun entry => Message.toolResult entry.message
  messages.foldl emitResult { p.emit ends with pendingResults := [] }

/-- The messages that an entry carries itself. -/
def overridden (data : Dict) (key : String) : Option (Option (List Message)) :=
  match data.lookup key with
  | none => some none
  | some raw => (decodeEach decodeMessage raw).map some

/-- The causes of an entry. -/
def causes (data : Dict) : Option (List Value) := ((data.lookup "causes").getD (.list [])).elems?

/-- One entry, the results before it being out. -/
def enter (p : Projector) (kind : String) (data : Dict) : Option Projector := do
  if kind = EventKind.agentStart then
    return { p.emit [.agentStart (← causes data)] with runMessages := [] }
  else if kind = EventKind.agentEnd then
    let messages := (← overridden data "messages").getD p.runMessages
    return p.emit [.agentEnd (← ((data.lookup "reason").getD (.str "completed")).str?) (← causes data) messages]
  else if kind = EventKind.turnStart then
    return { p.emit [.turnStart] with turnMessage := none, turnResults := [] }
  else if kind = EventKind.turnEnd then
    match data.lookup "message" with
    | none => return p.emit [.turnEnd p.turnMessage p.turnResults]
    | some raw => return p.emit [.turnEnd (← Value.optional decodeMessage (some raw)) []]
  else if kind = EventKind.assistantStreamStart then
    return { p.emit [.messageStart (← decodeMessage (← data.lookup "partial"))] with streamOpen := true }
  else if kind = EventKind.assistantChunk then
    let message ← (← decodeMessage (← data.lookup "partial")).assistant?
    let event ← assistantMessageEvent (← (← data.lookup "kind").str?) (← (← data.lookup "content_index").int?) message
      (← Value.optional Value.str? (data.lookup "delta"))
    return p.emit [.messageUpdate event (.assistant message)]
  else if kind = EventKind.assistantMessage then
    return { p.emitMessage (← decodeMessage (← data.lookup "message")) p.streamOpen with streamOpen := false }
  else if kind = EventKind.toolCall then
    return p.emit [.toolExecutionStart (← (← data.lookup "id").str?) (← (← data.lookup "name").str?)
      ((data.lookup "arguments").getD (.dict []))]
  else if kind = EventKind.toolResult then
    return { p with pendingResults := p.pendingResults ++ [← ResultEntry.read data] }
  else if kind = EventKind.userMessage then
    return p.emitMessage (← decodeMessage (← data.lookup "message"))
  else
    return p

/-- One entry.  Results wait until all that follow each other are there. -/
def step (p : Projector) (entry : SessionEvent) : Option Projector :=
  if entry.kind = EventKind.toolResult then p.enter entry.kind entry.data
  else p.flushResults.enter entry.kind entry.data

end Projector

/-- `project`. -/
def project (log : List SessionEvent) : Option (List AgentEvent) := do
  let p ← log.foldlM Projector.step {}
  return p.flushResults.events

end MinionAgent
