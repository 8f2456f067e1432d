import MinionAgent.Library.Base64
import MinionAgent.Llm.Messages

/-!
# MinionAgent.Session.Codec

Messages as the data the log stores (`session/derive.py`): `encodeMessage`
renders a message and `decodeMessage` restores it.

Decoding fails (`none`) where the Python code raises; data that would restore
to an ill-typed message, which Python does not check, is not decoded either.
`decode_encode` is the round trip, for every message.
-/

namespace MinionAgent

open Py

/-- The items of a dict with string keys. -/
abbrev Dict := List (String × Value)

/-! ## Encoding -/

def encodeTextBlock (block : TextBlock) : Value :=
  .dict ([("type", .str "text"), ("text", .str block.text)] ++
    Value.entry "text_signature" (block.textSignature.map .str))

def encodeThinkingBlock (block : ThinkingBlock) : Value :=
  .dict ([("type", .str "thinking"), ("thinking", .str block.thinking)] ++
    Value.entry "thinking_signature" (block.thinkingSignature.map .str) ++
    Value.entry "redacted" (if block.redacted then some (.bool true) else none))

def encodeImageBlock (block : ImageBlock) : Value :=
  .dict ([("type", .str "image"), ("mime_type", .str block.mimeType)] ++
    match block.source with
    | .reference ref => [("reference", .str ref)]
    | .data bytes => [("data", .str (Base64.encode bytes))])

def encodeToolCallBlock (block : ToolCallBlock) : Value :=
  .dict ([("type", .str "tool_call"), ("id", .str block.id), ("name", .str block.name),
      ("arguments", block.arguments.orderRaw)] ++
    Value.entry "thought_signature" (block.thoughtSignature.map .str) ++
    Value.entry "namespace" (block.namespace.map .str))

def encodeUserBlock : UserContentBlock → Value
  | .text block => encodeTextBlock block
  | .image block => encodeImageBlock block

def encodeAssistantBlock : AssistantContentBlock → Value
  | .text block => encodeTextBlock block
  | .thinking block => encodeThinkingBlock block
  | .toolCall block => encodeToolCallBlock block

/-- An optional number, `None` when absent. -/
def optionalInt : Option Int → Value
  | some i => .int i
  | none => .none

/-- An optional text, `None` when absent. -/
def optionalStr : Option String → Value
  | some s => .str s
  | none => .none

def encodeUsage (usage : Usage) : Value :=
  .dict [("input", .int usage.input), ("output", .int usage.output), ("cache_read", .int usage.cacheRead),
    ("cache_write", .int usage.cacheWrite), ("cache_write_1h", optionalInt usage.cacheWrite1h),
    ("reasoning", optionalInt usage.reasoning), ("total_tokens", .int usage.totalTokens),
    ("cost", .dict [("input", .float usage.cost.input), ("output", .float usage.cost.output),
      ("cache_read", .float usage.cost.cacheRead), ("cache_write", .float usage.cost.cacheWrite),
      ("total", .float usage.cost.total)])]

def encodeCode : DiagnosticCode → Value
  | .str s => .str s
  | .int i => .int i

def encodeDiagnosticError (error : DiagnosticError) : Value :=
  .dict ([("message", .str error.message)] ++ Value.entry "name" (error.name.map .str) ++
    Value.entry "stack" (error.stack.map .str) ++ Value.entry "code" (error.code.map encodeCode))

def encodeDiagnostic (diagnostic : AssistantMessageDiagnostic) : Value :=
  .dict ([("type", .str diagnostic.type), ("timestamp", .int diagnostic.timestamp)] ++
    Value.entry "error" (diagnostic.error.map encodeDiagnosticError) ++
    Value.entry "details" (diagnostic.details.map .dict))

def encodeDeferred (handle : DeferredHandle) : Value :=
  .dict ([("provider", .str handle.provider), ("model_id", .str handle.modelId), ("api", .str handle.api),
      ("id", .str handle.id)] ++
    Value.entry "expires_at" (handle.expiresAt.map .int) ++
    Value.entry "poll_after_ms" (handle.pollAfterMs.map .int) ++ Value.entry "data" (handle.data.map Present.value))

def encodeUserContent : UserContent → Value
  | .text text => .str text
  | .blocks blocks => .list (blocks.map encodeUserBlock)

/-- Render a message as data the log accepts. -/
def encodeMessage : Message → Value
  | .user m =>
    .dict [("role", .str "user"), ("content", encodeUserContent m.content), ("timestamp", .int m.timestamp)]
  | .assistant m =>
    .dict ([("role", .str "assistant"), ("content", .list (m.content.map encodeAssistantBlock)),
        ("timestamp", .int m.timestamp), ("stop_reason", .str m.stopReason.value), ("model", .str m.model),
        ("provider", .str m.provider), ("error_message", optionalStr m.errorMessage),
        ("usage", encodeUsage m.usage), ("api", .str m.api)] ++
      Value.entry "response_model" (m.responseModel.map .str) ++
      Value.entry "response_id" (m.responseId.map .str) ++
      Value.entry "diagnostics" (m.diagnostics.map fun ds => .list (ds.map encodeDiagnostic)) ++
      Value.entry "deferred" (m.deferred.map encodeDeferred) ++
      Value.entry "raw_stop_reason" (m.rawStopReason.map .str) ++ Value.entry "end_turn" (m.endTurn.map .bool))
  | .toolResult m =>
    .dict ([("role", .str "tool_result"), ("content", .list (m.content.map encodeUserBlock)),
        ("timestamp", .int m.timestamp), ("tool_call_id", .str m.toolCallId), ("tool_name", .str m.toolName),
        ("is_error", .bool m.isError)] ++
      Value.entry "details" (m.details.map Present.value) ++ Value.entry "usage" (m.usage.map encodeUsage) ++
      Value.entry "added_tool_names" (m.addedToolNames.map fun names => .list (names.map .str)))

/-! ## Decoding -/

/-- Every block kind, as `_decode_block` returns it. -/
inductive ContentBlock
  | text (block : TextBlock)
  | thinking (block : ThinkingBlock)
  | image (block : ImageBlock)
  | toolCall (block : ToolCallBlock)

/-- The cast to a user or tool-result block. -/
def ContentBlock.user? : ContentBlock → Option UserContentBlock
  | .text block => some (.text block)
  | .image block => some (.image block)
  | _ => none

/-- The cast to an assistant block. -/
def ContentBlock.assistant? : ContentBlock → Option AssistantContentBlock
  | .text block => some (.text block)
  | .thinking block => some (.thinking block)
  | .toolCall block => some (.toolCall block)
  | .image _ => none

def decodeBlock (raw : Value) : Option ContentBlock := do
  let kind ← (← raw.get? "type").str?
  if kind = "text" then
    return .text
      { text := ← (← raw.get? "text").str?, textSignature := ← Value.optional Value.str? (raw.get? "text_signature") }
  else if kind = "thinking" then
    return .thinking
      { thinking := ← (← raw.get? "thinking").str?
        thinkingSignature := ← Value.optional Value.str? (raw.get? "thinking_signature")
        redacted := ← ((raw.get? "redacted").getD (.bool false)).bool? }
  else if kind = "image" then
    match raw.get? "reference" with
    | some ref =>
      return .image { mimeType := ← (← raw.get? "mime_type").str?, source := .reference (← ref.str?) }
    | none =>
      return .image
        { mimeType := ← (← raw.get? "mime_type").str?
          source := .data (← Base64.decode (← (← raw.get? "data").str?)) }
  else if kind = "tool_call" then
    return .toolCall
      { id := ← (← raw.get? "id").str?
        name := ← (← raw.get? "name").str?
        arguments := Arguments.adopt (← (← raw.get? "arguments").items?)
        thoughtSignature := ← Value.optional Value.str? (raw.get? "thought_signature")
        «namespace» := ← Value.optional Value.str? (raw.get? "namespace") }
  else
    none

/-- A cost's field; the dataclass default is zero. -/
def decodeCostField (cost : Value) (key : String) : Option PyFloat :=
  ((cost.get? key).getD (.float PyFloat.zero)).float?

def decodeCost (cost : Value) : Option Cost := do
  return {
    input := ← decodeCostField cost "input"
    output := ← decodeCostField cost "output"
    cacheRead := ← decodeCostField cost "cache_read"
    cacheWrite := ← decodeCostField cost "cache_write"
    total := ← decodeCostField cost "total" }

def decodeUsage (raw : Value) : Option Usage := do
  return {
    input := ← (← raw.get? "input").int?
    output := ← (← raw.get? "output").int?
    cacheRead := ← (← raw.get? "cache_read").int?
    cacheWrite := ← (← raw.get? "cache_write").int?
    cacheWrite1h := ← Value.optional Value.int? (raw.get? "cache_write_1h")
    reasoning := ← Value.optional Value.int? (some (← raw.get? "reasoning"))
    totalTokens := ← ((raw.get? "total_tokens").getD (.int 0)).int?
    cost := (← Value.optional decodeCost (raw.get? "cost")).getD {} }

def decodeCode : Value → Option DiagnosticCode
  | .str s => some (.str s)
  | .int i => some (.int i)
  | _ => none

def decodeDiagnosticError (raw : Value) : Option DiagnosticError := do
  return {
    message := ← (← raw.get? "message").str?
    name := ← Value.optional Value.str? (raw.get? "name")
    stack := ← Value.optional Value.str? (raw.get? "stack")
    code := ← Value.optional decodeCode (raw.get? "code") }

def decodeDiagnostic (raw : Value) : Option AssistantMessageDiagnostic := do
  return {
    type := ← (← raw.get? "type").str?
    timestamp := ← (← raw.get? "timestamp").int?
    error := ← Value.optional decodeDiagnosticError (raw.get? "error")
    details := ← Value.optional Value.items? (raw.get? "details") }

/-- A value that is present when it is not `None`. -/
def decodePresent : Option Value → Option Present
  | some value => if h : value ≠ Value.none then some ⟨value, h⟩ else none
  | none => none

def decodeDeferred (raw : Value) : Option DeferredHandle := do
  return {
    provider := ← (← raw.get? "provider").str?
    modelId := ← (← raw.get? "model_id").str?
    api := ← (← raw.get? "api").str?
    id := ← (← raw.get? "id").str?
    expiresAt := ← Value.optional Value.int? (raw.get? "expires_at")
    pollAfterMs := ← Value.optional Value.int? (raw.get? "poll_after_ms")
    data := decodePresent (raw.get? "data") }

/-- `StopReason(value)`. -/
def stopReasonOf (value : String) : Option StopReason :=
  [.pending, .stop, .length, .toolUse, .error, .aborted, .deferred].find? fun reason => reason.value == value

/-- Decode every element of a list or tuple. -/
def decodeEach {α : Type} (decode : Value → Option α) (raw : Value) : Option (List α) := do
  (← raw.elems?).mapM decode

def decodeUserBlock (raw : Value) : Option UserContentBlock := do (← decodeBlock raw).user?

def decodeAssistantBlock (raw : Value) : Option AssistantContentBlock := do (← decodeBlock raw).assistant?

def decodeUserContent : Value → Option UserContent
  | .str text => some (.text text)
  | raw => (decodeEach decodeUserBlock raw).map .blocks

/-- Restore a message encoded by `encodeMessage`. -/
def decodeMessage (raw : Value) : Option Message := do
  let role ← (← raw.get? "role").str?
  if role = "user" then
    return .user
      { content := ← decodeUserContent (← raw.get? "content"), timestamp := ← (← raw.get? "timestamp").int? }
  else if role = "assistant" then
    return .assistant
      { content := ← decodeEach decodeAssistantBlock (← raw.get? "content")
        stopReason := ← stopReasonOf (← (← raw.get? "stop_reason").str?)
        usage := ← decodeUsage (← raw.get? "usage")
        model := ← (← raw.get? "model").str?
        provider := ← (← raw.get? "provider").str?
        timestamp := ← (← raw.get? "timestamp").int?
        errorMessage := ← Value.optional Value.str? (some (← raw.get? "error_message"))
        api := ← ((raw.get? "api").getD (.str "mock")).str?
        responseModel := ← Value.optional Value.str? (raw.get? "response_model")
        responseId := ← Value.optional Value.str? (raw.get? "response_id")
        diagnostics := ← Value.optional (decodeEach decodeDiagnostic) (raw.get? "diagnostics")
        deferred := ← Value.optional decodeDeferred (raw.get? "deferred")
        rawStopReason := ← Value.optional Value.str? (raw.get? "raw_stop_reason")
        endTurn := ← Value.optional Value.bool? (raw.get? "end_turn") }
  else if role = "tool_result" then
    return .toolResult
      { toolCallId := ← (← raw.get? "tool_call_id").str?
        content := ← decodeEach decodeUserBlock (← raw.get? "content")
        timestamp := ← (← raw.get? "timestamp").int?
        toolName := ← (← raw.get? "tool_name").str?
        isError := ← (← raw.get? "is_error").bool?
        details := decodePresent (raw.get? "details")
        usage := ← Value.optional decodeUsage (raw.get? "usage")
        addedToolNames := ← Value.optional (decodeEach Value.str?) (raw.get? "added_tool_names") }
  else
    none

/-! ## Round trip -/

@[simp] theorem optional_map {α : Type} (read : Value → Option α) (write : α → Value)
    (hwrite : ∀ a, read (write a) = some a) (hnone : ∀ a, write a ≠ Value.none) (a : Option α) :
    Value.optional read (a.map write) = some a := by
  cases a with
  | none => rfl
  | some a =>
    have h := hwrite a
    have h' := hnone a
    cases hv : write a with
    | scalar s => cases s <;> simp_all [Value.optional]
    | _ => simp_all [Value.optional]

theorem optional_optionalInt (i : Option Int) : Value.optional Value.int? (some (optionalInt i)) = some i := by
  cases i <;> rfl

theorem optional_optionalStr (s : Option String) : Value.optional Value.str? (some (optionalStr s)) = some s := by
  cases s <;> rfl

theorem decodePresent_map (p : Option Present) : decodePresent (p.map Present.value) = p := by
  cases p with
  | none => rfl
  | some p => simp [decodePresent, p.ne_none]

theorem decodeEach_map {α : Type} {decode : Value → Option α} {encode : α → Value}
    (h : ∀ a, decode (encode a) = some a) (xs : List α) : decodeEach decode (.list (xs.map encode)) = some xs := by
  have hmap : (xs.map encode).mapM decode = some xs := by
    induction xs with
    | nil => rfl
    | cons x xs ih => simp [List.mapM_cons, h, ih]
  simpa [decodeEach] using hmap

theorem optional_str (s : Option String) : Value.optional Value.str? (s.map .str) = some s := by
  cases s <;> rfl

theorem optional_int (i : Option Int) : Value.optional Value.int? (i.map .int) = some i := by
  cases i <;> rfl

theorem optional_bool (b : Option Bool) : Value.optional Value.bool? (b.map .bool) = some b := by
  cases b <;> rfl

@[simp] theorem decodeBlock_encodeTextBlock (block : TextBlock) :
    decodeBlock (encodeTextBlock block) = some (.text block) := by
  simp [decodeBlock, encodeTextBlock, List.lookup_cons, optional_str]

@[simp] theorem decodeBlock_encodeThinkingBlock (block : ThinkingBlock) :
    decodeBlock (encodeThinkingBlock block) = some (.thinking block) := by
  obtain ⟨thinking, signature, redacted⟩ := block
  cases redacted <;>
    simp [decodeBlock, encodeThinkingBlock, List.lookup_append, List.lookup_cons, optional_str]

@[simp] theorem decodeBlock_encodeImageBlock (block : ImageBlock) :
    decodeBlock (encodeImageBlock block) = some (.image block) := by
  obtain ⟨mimeType, source⟩ := block
  cases source <;> simp [decodeBlock, encodeImageBlock, List.lookup_cons]

@[simp] theorem decodeBlock_encodeToolCallBlock (block : ToolCallBlock) :
    decodeBlock (encodeToolCallBlock block) = some (.toolCall block) := by
  simp [decodeBlock, encodeToolCallBlock, List.lookup_append, List.lookup_cons, optional_str, Arguments.value]

theorem decodeUserBlock_encode (block : UserContentBlock) : decodeUserBlock (encodeUserBlock block) = some block := by
  cases block <;> simp [decodeUserBlock, encodeUserBlock, ContentBlock.user?]

theorem decodeAssistantBlock_encode (block : AssistantContentBlock) :
    decodeAssistantBlock (encodeAssistantBlock block) = some block := by
  cases block <;> simp [decodeAssistantBlock, encodeAssistantBlock, ContentBlock.assistant?]

theorem decodeUsage_encode (usage : Usage) : decodeUsage (encodeUsage usage) = some usage := by
  obtain ⟨input, output, cacheRead, cacheWrite, cacheWrite1h, reasoning, totalTokens, cost⟩ := usage
  simp [decodeUsage, encodeUsage, List.lookup_cons, optional_optionalInt, decodeCost, decodeCostField]

theorem decodeCode_encode (code : DiagnosticCode) : decodeCode (encodeCode code) = some code := by
  cases code <;> rfl

theorem decodeDiagnosticError_encode (error : DiagnosticError) :
    decodeDiagnosticError (encodeDiagnosticError error) = some error := by
  have hcode := optional_map decodeCode encodeCode decodeCode_encode (fun c => by cases c <;> simp [encodeCode])
      error.code
  simp [decodeDiagnosticError, encodeDiagnosticError, List.lookup_append, List.lookup_cons, optional_str, hcode]

theorem decodeDiagnostic_encode (diagnostic : AssistantMessageDiagnostic) :
    decodeDiagnostic (encodeDiagnostic diagnostic) = some diagnostic := by
  have herror := optional_map decodeDiagnosticError encodeDiagnosticError decodeDiagnosticError_encode
    (fun e => by simp [encodeDiagnosticError]) diagnostic.error
  have hdetails := optional_map Value.items? Value.dict (fun _ => rfl) (fun _ => by simp) diagnostic.details
  simp [decodeDiagnostic, encodeDiagnostic, List.lookup_append, List.lookup_cons, herror, hdetails]

theorem decodeDeferred_encode (handle : DeferredHandle) : decodeDeferred (encodeDeferred handle) = some handle := by
  simp [decodeDeferred, encodeDeferred, List.lookup_append, List.lookup_cons, optional_int, decodePresent_map]

theorem stopReasonOf_value (reason : StopReason) : stopReasonOf reason.value = some reason := by
  cases reason <;> decide

theorem decodeUserContent_encode (content : UserContent) :
    decodeUserContent (encodeUserContent content) = some content := by
  cases content with
  | text text => rfl
  | blocks blocks => simp [encodeUserContent, decodeUserContent, decodeEach_map decodeUserBlock_encode]

/-- The log's message codec is lossless. -/
theorem decode_encode (m : Message) : decodeMessage (encodeMessage m) = some m := by
  cases m with
  | user u =>
    simp [decodeMessage, encodeMessage, List.lookup_cons, decodeUserContent_encode]
  | assistant a =>
    have hdiagnostics := optional_map (decodeEach decodeDiagnostic) (fun ds => .list (ds.map encodeDiagnostic))
      (decodeEach_map decodeDiagnostic_encode) (fun ds => by simp) a.diagnostics
    have hdeferred := optional_map decodeDeferred encodeDeferred decodeDeferred_encode
      (fun h => by simp [encodeDeferred]) a.deferred
    simp [decodeMessage, encodeMessage, List.lookup_append, List.lookup_cons,
      decodeEach_map decodeAssistantBlock_encode, stopReasonOf_value, decodeUsage_encode, optional_optionalStr,
      optional_str, optional_bool, hdiagnostics, hdeferred]
  | toolResult r =>
    have husage := optional_map decodeUsage encodeUsage decodeUsage_encode (fun u => by simp [encodeUsage]) r.usage
    have hnames := optional_map (decodeEach Value.str?) (fun names => .list (names.map .str))
      (decodeEach_map fun _ => rfl) (fun names => by simp) r.addedToolNames
    simp [decodeMessage, encodeMessage, List.lookup_append, List.lookup_cons, decodeEach_map decodeUserBlock_encode,
      decodePresent_map, husage, hnames]

end MinionAgent
