import MinionAgent.Llm.JsObject

/-!
# MinionAgent.Llm.Messages

The provider-neutral vocabulary: content blocks (`llm/content.py`) and
messages (`llm/messages.py`).

Every role has its own block union, so an image in an assistant message or a
tool call in a user message cannot be written down.  An image holds exactly
one of inline bytes and a reference, and a tool call's arguments are kept in
ECMAScript order (`Arguments`).
-/

namespace MinionAgent

open Py

/-! ## Content blocks -/

/-- Ordinary model-visible text. -/
structure TextBlock where
  text : String
  textSignature : Option String := none
deriving DecidableEq

/-- Reasoning content, exposed separately from text. -/
structure ThinkingBlock where
  thinking : String
  thinkingSignature : Option String := none
  redacted : Bool := false
deriving DecidableEq

/-- Where an image's bytes are: inline, or under a reference. -/
inductive ImageSource
  | data (bytes : List UInt8)
  | reference (ref : String)
deriving DecidableEq

/-- An image the model can see. -/
structure ImageBlock where
  mimeType : String
  source : ImageSource
deriving DecidableEq

/-- A tool invocation the model requested. -/
structure ToolCallBlock where
  id : String
  name : String
  arguments : Arguments
  thoughtSignature : Option String := none
  «namespace» : Option String := none
deriving DecidableEq

/-- `TextBlock | ImageBlock`, the content of user messages. -/
inductive UserContentBlock
  | text (block : TextBlock)
  | image (block : ImageBlock)
deriving DecidableEq

/-- The same union under the name tool results use. -/
abbrev ToolResultContentBlock := UserContentBlock

/-- `TextBlock | ThinkingBlock | ToolCallBlock`, the content of replies. -/
inductive AssistantContentBlock
  | text (block : TextBlock)
  | thinking (block : ThinkingBlock)
  | toolCall (block : ToolCallBlock)
deriving DecidableEq

/-! ## Accounting and diagnostics -/

/-- Why a provider stopped generating. -/
inductive StopReason
  | pending | stop | length | toolUse | error | aborted | deferred
deriving DecidableEq

/-- `StopReason.value`. -/
def StopReason.value : StopReason → String
  | .pending => "pending"
  | .stop => "stop"
  | .length => "length"
  | .toolUse => "tool_use"
  | .error => "error"
  | .aborted => "aborted"
  | .deferred => "deferred"

/-- Monetary cost of one request. -/
structure Cost where
  input : PyFloat := PyFloat.zero
  output : PyFloat := PyFloat.zero
  cacheRead : PyFloat := PyFloat.zero
  cacheWrite : PyFloat := PyFloat.zero
  total : PyFloat := PyFloat.zero
deriving DecidableEq

/-- Token accounting of one request. -/
structure Usage where
  input : Int := 0
  output : Int := 0
  cacheRead : Int := 0
  cacheWrite : Int := 0
  cacheWrite1h : Option Int := none
  reasoning : Option Int := none
  totalTokens : Int := 0
  cost : Cost := {}
deriving DecidableEq

/-- A diagnostic error's `code: str | int`. -/
inductive DiagnosticCode
  | str (s : String)
  | int (i : Int)
deriving DecidableEq

/-- A structured error carried by a diagnostic. -/
structure DiagnosticError where
  message : String
  name : Option String := none
  stack : Option String := none
  code : Option DiagnosticCode := none
deriving DecidableEq

/-- Redacted provider or runtime diagnostics. -/
structure AssistantMessageDiagnostic where
  type : String
  timestamp : Int
  error : Option DiagnosticError := none
  details : Option (List (String × Value)) := none
deriving DecidableEq

/-- A value other than `None`, for a field whose `None` means absent. -/
structure Present where
  value : Value
  ne_none : value ≠ Value.none
deriving DecidableEq

/-- A pending deferred provider response. -/
structure DeferredHandle where
  provider : String
  modelId : String
  api : String
  id : String
  expiresAt : Option Int := none
  pollAfterMs : Option Int := none
  data : Option Present := none
deriving DecidableEq

/-! ## Messages -/

/-- A user message's content: a bare string, or blocks. -/
inductive UserContent
  | text (text : String)
  | blocks (blocks : List UserContentBlock)
deriving DecidableEq

/-- Input from a user or an application. -/
structure UserMessage where
  content : UserContent
  timestamp : Int
deriving DecidableEq

/-- One model response. -/
structure AssistantMessage where
  content : List AssistantContentBlock
  stopReason : StopReason
  usage : Usage
  model : String
  provider : String
  timestamp : Int
  errorMessage : Option String := none
  api : String := "mock"
  responseModel : Option String := none
  responseId : Option String := none
  diagnostics : Option (List AssistantMessageDiagnostic) := none
  deferred : Option DeferredHandle := none
  rawStopReason : Option String := none
  endTurn : Option Bool := none
deriving DecidableEq

/-- The result of one tool call, linked by `toolCallId`. -/
structure ToolResultMessage where
  toolCallId : String
  content : List ToolResultContentBlock
  timestamp : Int
  toolName : String
  isError : Bool := false
  details : Option Present := none
  usage : Option Usage := none
  addedToolNames : Option (List String) := none
deriving DecidableEq

/-- A message of any role. -/
inductive Message
  | user (message : UserMessage)
  | assistant (message : AssistantMessage)
  | toolResult (message : ToolResultMessage)
deriving DecidableEq

/-! ## Reading messages -/

/-- The tool call a block holds, if it holds one. -/
def AssistantContentBlock.toolCall? : AssistantContentBlock → Option ToolCallBlock
  | .toolCall call => some call
  | _ => none

/-- The tool calls of a reply, in order. -/
def AssistantMessage.toolCalls (message : AssistantMessage) : List ToolCallBlock :=
  message.content.filterMap AssistantContentBlock.toolCall?

/-- `stop_reason in (ERROR, ABORTED)`. -/
def AssistantMessage.failed (message : AssistantMessage) : Bool :=
  message.stopReason == .error || message.stopReason == .aborted

namespace Message

/-- `isinstance(message, AssistantMessage)`. -/
def assistant? : Message → Option AssistantMessage
  | .assistant a => some a
  | _ => none

/-- `isinstance(message, ToolResultMessage)`. -/
def toolResult? : Message → Option ToolResultMessage
  | .toolResult r => some r
  | _ => none

/-- Whether a message is a tool result. -/
def isToolResult (message : Message) : Bool := message.toolResult?.isSome

/-- Whether a message is a reply that ended in an error or was aborted. -/
def failed : Message → Bool
  | .assistant a => a.failed
  | _ => false

@[simp] theorem assistant?_assistant (a : AssistantMessage) : (assistant a).assistant? = some a := rfl
@[simp] theorem assistant?_user (u : UserMessage) : (user u).assistant? = none := rfl
@[simp] theorem assistant?_toolResult (r : ToolResultMessage) : (toolResult r).assistant? = none := rfl
@[simp] theorem isToolResult_toolResult (r : ToolResultMessage) : (toolResult r).isToolResult = true := rfl
@[simp] theorem isToolResult_user (u : UserMessage) : (user u).isToolResult = false := rfl
@[simp] theorem isToolResult_assistant (a : AssistantMessage) : (assistant a).isToolResult = false := rfl
@[simp] theorem failed_toolResult (r : ToolResultMessage) : (toolResult r).failed = false := rfl
@[simp] theorem failed_user (u : UserMessage) : (user u).failed = false := rfl
@[simp] theorem failed_assistant (a : AssistantMessage) : (assistant a).failed = a.failed := rfl

end Message

/-! ## Models -/

/-- Model identity: the `provider + api + model` triple. -/
structure ModelId where
  provider : String
  model : String
  api : String := "mock"
deriving DecidableEq

end MinionAgent
