import MinionAgent.Llm.Messages

/-!
# MinionAgent.Llm.TransformMessages

Target-model message transformation (`llm/transform_messages.py`): legacy
content, then unsupported images, then per-message content with tool-call-ID
rewriting, then orphan results and failed replies.

The tool-call-ID map is a list of bindings, newest first.  `_now_ms()` is a
clock: `nowMs i` is what the `i`-th reading of a call returns.
-/

namespace MinionAgent

open Py

/-! ## Targets and normalizers -/

/-- What the transformation knows about the model a request goes to. -/
structure TargetModel where
  identity : ModelId
  supportsImages : Bool

/-- A target-supplied tool-call-ID normalizer. -/
abbrev NormalizeToolCallId := String → TargetModel → AssistantMessage → String

/-- `tool_call_id_map`, newest binding first. -/
abbrev IdMap := List (String × String)

def nonVisionUserImagePlaceholder : String := "(image omitted: model does not support images)"
def nonVisionToolImagePlaceholder : String := "(tool image omitted: model does not support images)"
def orphanToolResultText : String := "No result provided"

/-! ## Python text -/

/-- `str.isspace` of one character. -/
def isPySpace (c : Char) : Bool :=
  let n := c.toNat
  (0x09 ≤ n && n ≤ 0x0D) || (0x1C ≤ n && n ≤ 0x20) || n == 0x85 || n == 0xA0 || n == 0x1680 ||
    (0x2000 ≤ n && n ≤ 0x200A) || n == 0x2028 || n == 0x2029 || n == 0x202F || n == 0x205F || n == 0x3000

/-- `text.strip()`, as its characters. -/
def pyStrip (text : String) : List Char :=
  (((text.toList.dropWhile isPySpace).reverse).dropWhile isPySpace).reverse

/-- `bool(value)` of an optional string. -/
def truthy : Option String → Bool
  | some s => !s.isEmpty
  | none => false

/-! ## Legacy content -/

/-- A message of an untyped caller: its content may be `None`. -/
structure LegacyMessage where
  message : Message
  contentIsNone : Bool := false

/-- The same message with no content. -/
def Message.withoutContent : Message → Message
  | .user m => .user { m with content := .blocks [] }
  | .assistant m => .assistant { m with content := [] }
  | .toolResult m => .toolResult { m with content := [] }

def normalizeLegacyContent (legacy : LegacyMessage) : Message :=
  if legacy.contentIsNone then legacy.message.withoutContent else legacy.message

/-! ## Unsupported images -/

/-- Replace every run of images by one placeholder, also after a text that is
the placeholder already. -/
def replaceImagesWithPlaceholder (placeholder : String) (previousWasPlaceholder : Bool) :
    List UserContentBlock → List UserContentBlock
  | [] => []
  | .image _ :: blocks =>
    if previousWasPlaceholder then
      replaceImagesWithPlaceholder placeholder true blocks
    else
      .text { text := placeholder } :: replaceImagesWithPlaceholder placeholder true blocks
  | .text block :: blocks =>
    .text block :: replaceImagesWithPlaceholder placeholder (block.text == placeholder) blocks

def downgradeMessage : Message → Message
  | .user m =>
    match m.content with
    | .text _ => .user m
    | .blocks blocks =>
      .user { m with content := .blocks (replaceImagesWithPlaceholder nonVisionUserImagePlaceholder false blocks) }
  | .toolResult m =>
    .toolResult { m with content := replaceImagesWithPlaceholder nonVisionToolImagePlaceholder false m.content }
  | .assistant m => .assistant m

def downgradeUnsupportedImages (messages : List Message) (target : TargetModel) : List Message :=
  if target.supportsImages then messages else messages.map downgradeMessage

/-! ## Content -/

def isSameModel (assistant : AssistantMessage) (target : TargetModel) : Bool :=
  assistant.provider == target.identity.provider && assistant.api == target.identity.api &&
    assistant.model == target.identity.model

def transformThinking (block : ThinkingBlock) (sameModel : Bool) : List AssistantContentBlock :=
  if block.redacted then
    if sameModel then [.thinking block] else []
  else if sameModel && truthy block.thinkingSignature then
    [.thinking block]
  else if block.thinking.isEmpty || (pyStrip block.thinking).isEmpty then
    []
  else if sameModel then
    [.thinking block]
  else
    [.text { text := block.thinking }]

def transformToolCall (call : ToolCallBlock) (sameModel : Bool) (target : TargetModel)
    (assistant : AssistantMessage) (normalizeToolCallId : Option NormalizeToolCallId)
    (toolCallIdMap : IdMap) : ToolCallBlock × IdMap :=
  let call := if !sameModel && truthy call.thoughtSignature then { call with thoughtSignature := none } else call
  match sameModel, normalizeToolCallId with
  | false, some normalize =>
    let normalizedId := normalize call.id target assistant
    if normalizedId ≠ call.id then
      ({ call with id := normalizedId }, (call.id, normalizedId) :: toolCallIdMap)
    else
      (call, toolCallIdMap)
  | _, _ => (call, toolCallIdMap)

/-- The loop over a reply's blocks. -/
def transformAssistantContent (assistant : AssistantMessage) (target : TargetModel)
    (normalizeToolCallId : Option NormalizeToolCallId) :
    List AssistantContentBlock → IdMap → List AssistantContentBlock × IdMap
  | [], toolCallIdMap => ([], toolCallIdMap)
  | block :: blocks, toolCallIdMap =>
    let sameModel := isSameModel assistant target
    let (transformed, toolCallIdMap) :=
      match block with
      | .thinking thinking => (transformThinking thinking sameModel, toolCallIdMap)
      | .text text => ([.text (if sameModel then text else { text := text.text })], toolCallIdMap)
      | .toolCall call =>
        let (call, toolCallIdMap) :=
          transformToolCall call sameModel target assistant normalizeToolCallId toolCallIdMap
        ([.toolCall call], toolCallIdMap)
    let (rest, toolCallIdMap) := transformAssistantContent assistant target normalizeToolCallId blocks toolCallIdMap
    (transformed ++ rest, toolCallIdMap)

/-- The `tool_call_id` rewrite of one tool result.  A mapped empty string
does not rewrite it. -/
def rewriteToolResult (message : ToolResultMessage) (toolCallIdMap : IdMap) : ToolResultMessage :=
  match toolCallIdMap.lookup message.toolCallId with
  | some normalizedId =>
    if !normalizedId.isEmpty && normalizedId ≠ message.toolCallId then
      { message with toolCallId := normalizedId }
    else
      message
  | none => message

/-- The first pass over the history, from a given map on. -/
def contentTransformPass (target : TargetModel) (normalizeToolCallId : Option NormalizeToolCallId) :
    List Message → IdMap → List Message
  | [], _ => []
  | .user m :: messages, toolCallIdMap =>
    .user m :: contentTransformPass target normalizeToolCallId messages toolCallIdMap
  | .toolResult m :: messages, toolCallIdMap =>
    .toolResult (rewriteToolResult m toolCallIdMap) ::
      contentTransformPass target normalizeToolCallId messages toolCallIdMap
  | .assistant m :: messages, toolCallIdMap =>
    let (content, toolCallIdMap) := transformAssistantContent m target normalizeToolCallId m.content toolCallIdMap
    .assistant { m with content } :: contentTransformPass target normalizeToolCallId messages toolCallIdMap

/-! ## Orphan results -/

/-- The error result synthesized for an unanswered call. -/
def orphanResult (timestamp : Int) (call : ToolCallBlock) : ToolResultMessage where
  toolCallId := call.id
  content := [.text { text := orphanToolResultText }]
  timestamp := timestamp
  toolName := call.name
  isError := true

/-- The locals of the second pass; `reads` counts the clock's readings. -/
structure OrphanState where
  result : List Message := []
  pendingCalls : List ToolCallBlock := []
  resolvedIds : List String := []
  reads : Nat := 0

/-- `flush_orphans`, over the calls still to look at. -/
def flushCalls (nowMs : Nat → Int) (state : OrphanState) : List ToolCallBlock → OrphanState
  | [] => state
  | call :: calls =>
    if call.id ∈ state.resolvedIds then
      flushCalls nowMs state calls
    else
      flushCalls nowMs
        { state with
          result := state.result ++ [.toolResult (orphanResult (nowMs state.reads) call)]
          reads := state.reads + 1 } calls

def flushOrphans (nowMs : Nat → Int) (state : OrphanState) : OrphanState :=
  { flushCalls nowMs state state.pendingCalls with pendingCalls := [], resolvedIds := [] }

/-- One round of the second pass's loop. -/
def orphanStep (nowMs : Nat → Int) (state : OrphanState) : Message → OrphanState
  | .assistant m =>
    let state := flushOrphans nowMs state
    if m.failed then
      state
    else
      let calls := m.toolCalls
      let state := if calls.isEmpty then state else { state with pendingCalls := calls, resolvedIds := [] }
      { state with result := state.result ++ [.assistant m] }
  | .toolResult m =>
    { state with resolvedIds := m.toolCallId :: state.resolvedIds, result := state.result ++ [.toolResult m] }
  | .user m =>
    let state := flushOrphans nowMs state
    { state with result := state.result ++ [.user m] }

def orphanSynthesisPass (nowMs : Nat → Int) (messages : List Message) : List Message :=
  (flushOrphans nowMs (messages.foldl (orphanStep nowMs) {})).result

/-! ## The pipeline -/

/-- Transform a history for dispatch to `target`. -/
def transformMessages (nowMs : Nat → Int) (messages : List LegacyMessage) (target : TargetModel)
    (normalizeToolCallId : Option NormalizeToolCallId) : List Message :=
  let normalized := messages.map normalizeLegacyContent
  let imageAware := downgradeUnsupportedImages normalized target
  let contentTransformed := contentTransformPass target normalizeToolCallId imageAware []
  orphanSynthesisPass nowMs contentTransformed

end MinionAgent
