import MinionAgent.Llm.TransformMessages

/-!
# MinionAgent.Llm.TransformRust

The Rust implementation of the same transformation (`llm/transform.rs`, with
the legacy-content boundary of `llm/transform_compat.rs`).

The typed vocabulary of the two bindings corresponds field by field, so the
messages of `MinionAgent.Llm.Messages` serve both.  What the Rust code does
in its own way is kept: `trim` on Unicode `White_Space`, the source message
passed next to the image-aware one, iterators over mutable locals.
-/

namespace MinionAgent.Rust

open MinionAgent

/-! ## Rust text -/

/-- `char::is_whitespace`, Unicode `White_Space`. -/
def isWhitespace (c : Char) : Bool :=
  let n := c.toNat
  n == 0x20 || (0x09 ≤ n && n ≤ 0x0D) || n == 0x85 || n == 0xA0 || n == 0x1680 ||
    (0x2000 ≤ n && n ≤ 0x200A) || n == 0x2028 || n == 0x2029 || n == 0x202F || n == 0x205F || n == 0x3000

/-- `str::trim`, as its characters. -/
def trim (text : String) : List Char :=
  (((text.toList.dropWhile isWhitespace).reverse).dropWhile isWhitespace).reverse

/-- `value.as_deref().is_some_and(|s| !s.is_empty())`. -/
def isSomeNonEmpty (value : Option String) : Bool :=
  value.any fun s => !s.isEmpty

/-! ## Unsupported images -/

/-- The locals of the image loop. -/
structure DowngradeState where
  output : List UserContentBlock := []
  previousWasPlaceholder : Bool := false

/-- One round of `downgrade_user_blocks` and `downgrade_tool_blocks`. -/
def downgradeBlock (placeholder : String) (state : DowngradeState) : UserContentBlock → DowngradeState
  | .image _ =>
    let output :=
      if state.previousWasPlaceholder then state.output else state.output ++ [.text { text := placeholder }]
    { output, previousWasPlaceholder := true }
  | .text text =>
    { previousWasPlaceholder := text.text == placeholder, output := state.output ++ [.text text] }

def downgradeBlocks (placeholder : String) (blocks : List UserContentBlock) : List UserContentBlock :=
  (blocks.foldl (downgradeBlock placeholder) {}).output

def downgradeUserBlocks : List UserContentBlock → List UserContentBlock :=
  downgradeBlocks "(image omitted: model does not support images)"

def downgradeToolBlocks : List ToolResultContentBlock → List ToolResultContentBlock :=
  downgradeBlocks "(tool image omitted: model does not support images)"

def downgradeImages : Message → Message
  | .user message =>
    match message.content with
    | .blocks blocks => .user { message with content := .blocks (downgradeUserBlocks blocks) }
    | .text _ => .user message
  | .toolResult message => .toolResult { message with content := downgradeToolBlocks message.content }
  | .assistant message => .assistant message

/-! ## Content -/

def isSameModel (source : AssistantMessage) (target : TargetModel) : Bool :=
  source.provider == target.identity.provider && source.api == target.identity.api &&
    source.model == target.identity.model

def transformThinking (block : ThinkingBlock) (sameModel : Bool) : List AssistantContentBlock :=
  if block.redacted then
    if sameModel then [.thinking block] else []
  else if sameModel && isSomeNonEmpty block.thinkingSignature then
    [.thinking block]
  else if (trim block.thinking).isEmpty then
    []
  else if sameModel then
    [.thinking block]
  else
    [.text { text := block.thinking }]

/-- One block, with the ID map threaded through. -/
def transformAssistantBlock (block : AssistantContentBlock) (sameModel : Bool) (target : TargetModel)
    (source : AssistantMessage) (normalizer : Option NormalizeToolCallId) (idMap : IdMap) :
    List AssistantContentBlock × IdMap :=
  match block with
  | .thinking thinking => (transformThinking thinking sameModel, idMap)
  | .text text => if !sameModel then ([.text { text := text.text }], idMap) else ([.text text], idMap)
  | .toolCall call =>
    let originalId := call.id
    let call :=
      if !sameModel && isSomeNonEmpty call.thoughtSignature then { call with thoughtSignature := none } else call
    match (if sameModel then none else normalizer) with
    | some policy =>
      let normalized := policy originalId target source
      if normalized ≠ originalId then
        ([.toolCall { call with id := normalized }], (originalId, normalized) :: idMap)
      else
        ([.toolCall call], idMap)
    | none => ([.toolCall call], idMap)

/-- The `flat_map` over a reply's blocks. -/
def transformAssistantBlocks (sameModel : Bool) (target : TargetModel) (source : AssistantMessage)
    (normalizer : Option NormalizeToolCallId) :
    List AssistantContentBlock → IdMap → List AssistantContentBlock × IdMap
  | [], idMap => ([], idMap)
  | block :: blocks, idMap =>
    let (transformed, idMap) := transformAssistantBlock block sameModel target source normalizer idMap
    let (rest, idMap) := transformAssistantBlocks sameModel target source normalizer blocks idMap
    (transformed ++ rest, idMap)

def rewriteToolResult (result : ToolResultMessage) (idMap : IdMap) : ToolResultMessage :=
  match idMap.lookup result.toolCallId with
  | some normalized =>
    if !normalized.isEmpty && normalized ≠ result.toolCallId then
      { result with toolCallId := normalized }
    else
      result
  | none => result

/-- The `map` over the image-aware messages, each next to its source. -/
def transformContent (target : TargetModel) (normalizer : Option NormalizeToolCallId) :
    List (Message × Message) → IdMap → List Message
  | [], _ => []
  | (source, .assistant assistant) :: messages, idMap =>
    let sourceAssistant := source.assistant?.getD assistant
    let sameModel := isSameModel sourceAssistant target
    let (content, idMap) :=
      transformAssistantBlocks sameModel target sourceAssistant normalizer assistant.content idMap
    .assistant { assistant with content } :: transformContent target normalizer messages idMap
  | (_, .toolResult result) :: messages, idMap =>
    .toolResult (rewriteToolResult result idMap) :: transformContent target normalizer messages idMap
  | (_, .user user) :: messages, idMap => .user user :: transformContent target normalizer messages idMap

/-! ## Orphan results -/

/-- The locals of `synthesize_orphans`; `reads` counts the clock's readings. -/
structure OrphanState where
  output : List Message := []
  pending : List ToolCallBlock := []
  resolved : List String := []
  reads : Nat := 0

/-- One round of `flush_orphans`, which drains the pending calls. -/
def flushOrphan (nowMillis : Nat → Int) (state : OrphanState) (call : ToolCallBlock) : OrphanState :=
  if state.resolved.contains call.id then
    state
  else
    { state with
      output := state.output ++
        [.toolResult
          { toolCallId := call.id, toolName := call.name, content := [.text { text := "No result provided" }],
            isError := true, timestamp := nowMillis state.reads }]
      reads := state.reads + 1 }

def flushOrphans (nowMillis : Nat → Int) (state : OrphanState) : OrphanState :=
  { state.pending.foldl (flushOrphan nowMillis) state with pending := [], resolved := [] }

/-- One round of the loop over the messages. -/
def synthesizeOrphan (nowMillis : Nat → Int) (state : OrphanState) : Message → OrphanState
  | .assistant assistant =>
    let state := flushOrphans nowMillis state
    match assistant.stopReason with
    | .error | .aborted => state
    | _ =>
      { state with
        pending := state.pending ++ assistant.content.filterMap AssistantContentBlock.toolCall?
        output := state.output ++ [.assistant assistant] }
  | .toolResult result =>
    { state with
      resolved := result.toolCallId :: state.resolved
      output := state.output ++ [.toolResult result] }
  | .user user =>
    let state := flushOrphans nowMillis state
    { state with output := state.output ++ [.user user] }

def synthesizeOrphans (nowMillis : Nat → Int) (messages : List Message) : List Message :=
  (flushOrphans nowMillis (messages.foldl (synthesizeOrphan nowMillis) {})).output

/-! ## The pipeline -/

/-- `transform_messages` of the typed history. -/
def transformMessages (nowMillis : Nat → Int) (messages : List Message) (target : TargetModel)
    (normalizer : Option NormalizeToolCallId) : List Message :=
  let imageAware := if target.supportsImages then messages else messages.map downgradeImages
  synthesizeOrphans nowMillis (transformContent target normalizer (messages.zip imageAware) [])

/-- `transform_legacy_messages`: null or absent content becomes empty at the
dynamic boundary. -/
def transformLegacyMessages (nowMillis : Nat → Int) (messages : List LegacyMessage) (target : TargetModel)
    (normalizer : Option NormalizeToolCallId) : List Message :=
  transformMessages nowMillis (messages.map normalizeLegacyContent) target normalizer

end MinionAgent.Rust
