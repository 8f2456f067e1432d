import MinionAgent.Library.Obligation
import MinionAgent.Llm.TransformRust

/-!
# MinionAgent.Llm.Transformation

What the transformation is for, as one definition that both implementations
refine: every block, reply and result is rewritten on its own
(`newBlock`, `newAssistant`, `newResult`), the ID map of a message is read off
the replies before it (`rewritings`), and orphan results are answers to
obligations (`Obligation.discharge`): a reply raises its tool calls, a tool
result meets one, a user message interrupts and a failed reply is discarded.

The definition is parametrised by what counts as blank thinking, the only
thing the implementations decide differently:

* `transformMessages_eq` — Python, with `str.strip`;
* `transformLegacyMessages_eq` — Rust, with `str::trim`.
-/

namespace MinionAgent.Transformation

open Obligation

section

variable (blank : String → Bool) (target : TargetModel) (normalize : Option NormalizeToolCallId)

/-! ## Blocks and messages -/

/-- The ID a reply's call gets: rewritten for another model only. -/
def newId (source : AssistantMessage) (id : String) : String :=
  match isSameModel source target, normalize with
  | false, some f => f id target source
  | _, _ => id

/-- A call with its new ID; another model's thought signature is stripped. -/
def newCall (source : AssistantMessage) (call : ToolCallBlock) : ToolCallBlock :=
  { call with
    id := newId target normalize source call.id
    thoughtSignature :=
      if !isSameModel source target && truthy call.thoughtSignature then none else call.thoughtSignature }

/-- Thinking: kept when redacted or signed for the same model, dropped when
blank, shown as text to another model. -/
def newThinking (sameModel : Bool) (block : ThinkingBlock) : List AssistantContentBlock :=
  if block.redacted then
    if sameModel then [.thinking block] else []
  else if sameModel && truthy block.thinkingSignature then
    [.thinking block]
  else if blank block.thinking then
    []
  else if sameModel then
    [.thinking block]
  else
    [.text { text := block.thinking }]

def newBlock (source : AssistantMessage) : AssistantContentBlock → List AssistantContentBlock
  | .thinking block => newThinking blank (isSameModel source target) block
  | .text block => [.text (if isSameModel source target then block else { text := block.text })]
  | .toolCall call => [.toolCall (newCall target normalize source call)]

def newAssistant (source : AssistantMessage) : AssistantMessage :=
  { source with content := source.content.flatMap (newBlock blank target normalize source) }

/-- The bindings a reply adds to the ID map, newest first. -/
def rewritings (source : AssistantMessage) : IdMap :=
  ((source.toolCalls.filter fun call => newId target normalize source call.id ≠ call.id).map fun call =>
    (call.id, newId target normalize source call.id)).reverse

/-- The ID a result gets under a map: an empty binding does not count. -/
def resultId (idMap : IdMap) (id : String) : String :=
  match idMap.lookup id with
  | some new => if new.isEmpty then id else new
  | none => id

def newResult (idMap : IdMap) (result : ToolResultMessage) : ToolResultMessage :=
  { result with toolCallId := resultId idMap result.toolCallId }

/-- The content pass, under the map the earlier replies have left. -/
def contentPass : IdMap → List Message → List Message
  | _, [] => []
  | idMap, .user m :: messages => .user m :: contentPass idMap messages
  | idMap, .toolResult m :: messages => .toolResult (newResult idMap m) :: contentPass idMap messages
  | idMap, .assistant m :: messages =>
    .assistant (newAssistant blank target normalize m) ::
      contentPass (rewritings target normalize m ++ idMap) messages

/-- The image pass. -/
def imagePass (messages : List Message) : List Message :=
  if target.supportsImages then messages else messages.map downgradeMessage

end

/-! ## Orphans as obligations -/

/-- What a message does to the open tool calls. -/
def classify : Message → Event ToolCallBlock String
  | .assistant m => if m.failed then .discards else .raises m.toolCalls
  | .toolResult m => .meets m.toolCallId
  | .user _ => .interrupts

/-- The synthesized answer to a call, at the `n`-th reading of the clock. -/
def answer (nowMs : Nat → Int) (n : Nat) (call : ToolCallBlock) : Message :=
  .toolResult (orphanResult (nowMs n) call)

theorem classify_answer (nowMs : Nat → Int) (n : Nat) (call : ToolCallBlock) :
    classify (answer nowMs n call) = .meets call.id := rfl

theorem isMeeting_classify (m : Message) : (classify m).isMeeting = m.isToolResult := by
  cases m with
  | assistant a => by_cases h : a.failed <;> simp [classify, h, Event.isMeeting]
  | user u => rfl
  | toolResult r => rfl

theorem isDiscarded_classify (m : Message) : (classify m).isDiscarded = m.failed := by
  cases m with
  | assistant a => by_cases h : a.failed <;> simp [classify, h, Event.isDiscarded]
  | user u => rfl
  | toolResult r => rfl

/-- The orphan pass. -/
def orphanPass (nowMs : Nat → Int) (messages : List Message) : List Message :=
  discharge classify ToolCallBlock.id (answer nowMs) 0 [] [] messages

/-- The orphan pass keeps what is not failed and only inserts orphan results. -/
theorem padded_orphanPass (nowMs : Nat → Int) (messages : List Message) :
    Padded (fun m => ∃ n call, m = answer nowMs n call) (messages.filter fun m => !m.failed)
      (orphanPass nowMs messages) := by
  have hpadded : Padded (fun m => ∃ n call, m = answer nowMs n call)
      (messages.filter fun m => !(classify m).isDiscarded) (orphanPass nowMs messages) :=
    padded_discharge messages 0 [] []
  simpa only [isDiscarded_classify] using hpadded

/-- The whole transformation of a typed history. -/
def transform (blank : String → Bool) (nowMs : Nat → Int) (target : TargetModel)
    (normalize : Option NormalizeToolCallId) (messages : List Message) : List Message :=
  orphanPass nowMs (contentPass blank target normalize [] (imagePass target messages))

/-! ## The Python implementation refines it -/

/-- `not text or not text.strip()`. -/
def pyBlank (text : String) : Bool := text.isEmpty || (pyStrip text).isEmpty

section

variable (target : TargetModel) (normalize : Option NormalizeToolCallId)

theorem transformToolCall_eq (call : ToolCallBlock) (source : AssistantMessage) (idMap : IdMap) :
    transformToolCall call (isSameModel source target) target source normalize idMap =
      (newCall target normalize source call,
        (if newId target normalize source call.id ≠ call.id then
          [(call.id, newId target normalize source call.id)] else []) ++ idMap) := by
  unfold transformToolCall newCall newId
  cases isSameModel source target with
  | true => simp
  | false =>
    cases normalize with
    | none => by_cases hsig : truthy call.thoughtSignature <;> simp [hsig]
    | some f =>
      by_cases hsig : truthy call.thoughtSignature <;>
        by_cases hid : f call.id target source = call.id <;> simp [hsig, hid]

/-- The bindings of the calls among `blocks`, newest first. -/
private def blockRewritings (source : AssistantMessage) (blocks : List AssistantContentBlock) : IdMap :=
  (((blocks.filterMap AssistantContentBlock.toolCall?).filter fun call =>
    newId target normalize source call.id ≠ call.id).map fun call =>
      (call.id, newId target normalize source call.id)).reverse

private theorem blockRewritings_toolCall (source : AssistantMessage) (call : ToolCallBlock)
    (blocks : List AssistantContentBlock) (idMap : IdMap) :
    blockRewritings target normalize source (.toolCall call :: blocks) ++ idMap =
      blockRewritings target normalize source blocks ++
        ((if newId target normalize source call.id ≠ call.id then
          [(call.id, newId target normalize source call.id)] else []) ++ idMap) := by
  by_cases h : newId target normalize source call.id = call.id <;>
    simp [blockRewritings, AssistantContentBlock.toolCall?, h]

theorem transformAssistantContent_eq (source : AssistantMessage) (blocks : List AssistantContentBlock)
    (idMap : IdMap) :
    transformAssistantContent source target normalize blocks idMap =
      (blocks.flatMap (newBlock pyBlank target normalize source),
        blockRewritings target normalize source blocks ++ idMap) := by
  induction blocks generalizing idMap with
  | nil => simp [transformAssistantContent, blockRewritings]
  | cons block blocks ih =>
    cases block with
    | thinking thinking =>
      simp only [transformAssistantContent, ih]
      rfl
    | text text =>
      simp only [transformAssistantContent, ih]
      rfl
    | toolCall call =>
      rw [blockRewritings_toolCall]
      simp only [transformAssistantContent, transformToolCall_eq, ih]
      rfl

theorem rewriteToolResult_eq (result : ToolResultMessage) (idMap : IdMap) :
    rewriteToolResult result idMap = newResult idMap result := by
  unfold rewriteToolResult newResult resultId
  cases idMap.lookup result.toolCallId with
  | none => rfl
  | some new =>
    by_cases hempty : new.isEmpty
    · simp [hempty]
    · by_cases hsame : new = result.toolCallId <;> simp [hempty, hsame]

theorem contentTransformPass_eq (messages : List Message) (idMap : IdMap) :
    contentTransformPass target normalize messages idMap = contentPass pyBlank target normalize idMap messages := by
  induction messages generalizing idMap with
  | nil => rfl
  | cons m messages ih =>
    cases m with
    | user u => simp only [contentTransformPass, contentPass, ih]
    | toolResult r => simp only [contentTransformPass, contentPass, ih, rewriteToolResult_eq]
    | assistant a =>
      simp only [contentTransformPass, contentPass, ih, transformAssistantContent_eq]
      rfl

end

theorem flushOrphans_eq (nowMs : Nat → Int) (state : OrphanState) :
    flushOrphans nowMs state =
      { result := state.result ++
          answers (answer nowMs) state.reads (unmet ToolCallBlock.id state.pendingCalls state.resolvedIds)
        reads := state.reads + (unmet ToolCallBlock.id state.pendingCalls state.resolvedIds).length } := by
  have hcalls : ∀ (calls : List ToolCallBlock) (state : OrphanState),
      flushCalls nowMs state calls =
        { state with
          result := state.result ++ answers (answer nowMs) state.reads (unmet ToolCallBlock.id calls state.resolvedIds)
          reads := state.reads + (unmet ToolCallBlock.id calls state.resolvedIds).length } := by
    intro calls
    induction calls with
    | nil => simp [flushCalls, unmet]
    | cons call calls ih =>
      intro state
      by_cases hmem : call.id ∈ state.resolvedIds
      · simp [flushCalls, hmem, ih, unmet]
      · simp [flushCalls, hmem, ih, unmet, answers_cons, answer, Nat.add_comm, Nat.add_assoc]
  simp [flushOrphans, hcalls]

/-- The loop's state is what `discharge` carries. -/
theorem orphanSynthesisPass_eq (nowMs : Nat → Int) (messages : List Message) :
    orphanSynthesisPass nowMs messages = orphanPass nowMs messages := by
  have hloop : ∀ (messages : List Message) (state : OrphanState),
      (flushOrphans nowMs (messages.foldl (orphanStep nowMs) state)).result =
        state.result ++ discharge classify ToolCallBlock.id (answer nowMs) state.reads state.pendingCalls
          state.resolvedIds messages := by
    intro messages
    induction messages with
    | nil => simp [flushOrphans_eq, discharge]
    | cons m messages ih =>
      intro state
      rw [List.foldl_cons, ih]
      cases m with
      | user u => simp [orphanStep, flushOrphans_eq, discharge, classify]
      | toolResult r => simp [orphanStep, discharge, classify]
      | assistant a =>
        by_cases hfailed : a.failed
        · simp [orphanStep, flushOrphans_eq, discharge, classify, hfailed]
        · by_cases hcalls : a.toolCalls = [] <;>
            simp [orphanStep, flushOrphans_eq, discharge, classify, hfailed, hcalls]
  exact hloop messages {}

/-- The Python pipeline is the transformation with `str.strip`'s blanks. -/
theorem transformMessages_eq (nowMs : Nat → Int) (messages : List LegacyMessage) (target : TargetModel)
    (normalize : Option NormalizeToolCallId) :
    transformMessages nowMs messages target normalize =
      transform pyBlank nowMs target normalize (messages.map normalizeLegacyContent) := by
  simp only [transformMessages, orphanSynthesisPass_eq, contentTransformPass_eq]
  rfl

/-! ## The Rust implementation refines it -/

/-- `text.trim().is_empty()`. -/
def rustBlank (text : String) : Bool := (Rust.trim text).isEmpty

theorem isSomeNonEmpty_eq (value : Option String) : Rust.isSomeNonEmpty value = truthy value := by
  cases value <;> rfl

theorem downgradeBlocks_eq (placeholder : String) (blocks : List UserContentBlock) :
    Rust.downgradeBlocks placeholder blocks = replaceImagesWithPlaceholder placeholder false blocks := by
  have hloop : ∀ (blocks : List UserContentBlock) (state : Rust.DowngradeState),
      (blocks.foldl (Rust.downgradeBlock placeholder) state).output =
        state.output ++ replaceImagesWithPlaceholder placeholder state.previousWasPlaceholder blocks := by
    intro blocks
    induction blocks with
    | nil => simp [replaceImagesWithPlaceholder]
    | cons block blocks ih =>
      intro state
      cases block with
      | text text => simp [Rust.downgradeBlock, ih, replaceImagesWithPlaceholder]
      | image image =>
        cases hprev : state.previousWasPlaceholder <;>
          simp [Rust.downgradeBlock, ih, replaceImagesWithPlaceholder, hprev]
  exact hloop blocks {}

theorem downgradeImages_eq (m : Message) : Rust.downgradeImages m = downgradeMessage m := by
  cases m with
  | assistant a => rfl
  | toolResult r =>
    simp only [Rust.downgradeImages, downgradeMessage, Rust.downgradeToolBlocks, downgradeBlocks_eq]
    rfl
  | user u =>
    cases hcontent : u.content with
    | text text => simp [Rust.downgradeImages, downgradeMessage, hcontent]
    | blocks blocks =>
      simp only [Rust.downgradeImages, downgradeMessage, hcontent, Rust.downgradeUserBlocks, downgradeBlocks_eq]
      rfl

section

variable (target : TargetModel) (normalize : Option NormalizeToolCallId)

theorem transformAssistantBlocks_eq (source : AssistantMessage) (blocks : List AssistantContentBlock)
    (idMap : IdMap) :
    Rust.transformAssistantBlocks (isSameModel source target) target source normalize blocks idMap =
      (blocks.flatMap (newBlock rustBlank target normalize source),
        blockRewritings target normalize source blocks ++ idMap) := by
  have hcall : ∀ (call : ToolCallBlock) (idMap : IdMap),
      Rust.transformAssistantBlock (.toolCall call) (isSameModel source target) target source normalize idMap =
        ([.toolCall (newCall target normalize source call)],
          (if newId target normalize source call.id ≠ call.id then
            [(call.id, newId target normalize source call.id)] else []) ++ idMap) := by
    intro call idMap
    cases hsame : isSameModel source target with
    | true => simp [Rust.transformAssistantBlock, newCall, newId, hsame]
    | false =>
      cases normalize with
      | none =>
        by_cases hsig : truthy call.thoughtSignature <;>
          simp [Rust.transformAssistantBlock, newCall, newId, isSomeNonEmpty_eq, hsame, hsig]
      | some f =>
        by_cases hsig : truthy call.thoughtSignature <;>
          by_cases hid : f call.id target source = call.id <;>
            simp [Rust.transformAssistantBlock, newCall, newId, isSomeNonEmpty_eq, hsame, hsig, hid]
  induction blocks generalizing idMap with
  | nil => simp [Rust.transformAssistantBlocks, blockRewritings]
  | cons block blocks ih =>
    cases block with
    | thinking thinking =>
      simp only [Rust.transformAssistantBlocks, Rust.transformAssistantBlock, ih, Rust.transformThinking,
        isSomeNonEmpty_eq]
      rfl
    | text text =>
      cases hsame : isSameModel source target <;>
        simp [Rust.transformAssistantBlocks, Rust.transformAssistantBlock, hsame ▸ ih, newBlock, hsame] <;> rfl
    | toolCall call =>
      rw [blockRewritings_toolCall]
      simp only [Rust.transformAssistantBlocks, hcall, ih]
      rfl

/-- Assistant messages have no images, so each one is its own source. -/
theorem transformContent_eq (images : Message → Message) (himages : ∀ a, images (.assistant a) = .assistant a)
    (huser : ∀ u, ∃ v, images (.user u) = .user v) (hresult : ∀ r, ∃ s, images (.toolResult r) = .toolResult s)
    (messages : List Message) (idMap : IdMap) :
    Rust.transformContent target normalize (messages.zip (messages.map images)) idMap =
      contentPass rustBlank target normalize idMap (messages.map images) := by
  induction messages generalizing idMap with
  | nil => rfl
  | cons m messages ih =>
    cases m with
    | user u =>
      obtain ⟨v, hv⟩ := huser u
      simp only [List.map_cons, List.zip_cons_cons, hv, Rust.transformContent, contentPass, ih]
    | toolResult r =>
      obtain ⟨s, hs⟩ := hresult r
      simp only [List.map_cons, List.zip_cons_cons, hs, Rust.transformContent, contentPass, ih]
      rw [← rewriteToolResult_eq]
      rfl
    | assistant a =>
      simp only [List.map_cons, List.zip_cons_cons, himages, Rust.transformContent, contentPass]
      have hcontent := transformAssistantBlocks_eq target normalize a a.content idMap
      change Rust.transformAssistantBlocks (Rust.isSameModel a target) target a normalize a.content idMap =
        _ at hcontent
      simp only [Message.assistant?, Option.getD_some, hcontent, ih]
      rfl

end

/-- The two orphan loops keep the same locals. -/
theorem synthesizeOrphans_eq (nowMillis : Nat → Int) (messages : List Message) :
    Rust.synthesizeOrphans nowMillis messages = orphanPass nowMillis messages := by
  have hflush : ∀ state : Rust.OrphanState,
      Rust.flushOrphans nowMillis state =
        { output := state.output ++
            answers (answer nowMillis) state.reads (unmet ToolCallBlock.id state.pending state.resolved)
          reads := state.reads + (unmet ToolCallBlock.id state.pending state.resolved).length } := by
    have hcalls : ∀ (calls : List ToolCallBlock) (state : Rust.OrphanState),
        calls.foldl (Rust.flushOrphan nowMillis) state =
          { state with
            output := state.output ++
              answers (answer nowMillis) state.reads (unmet ToolCallBlock.id calls state.resolved)
            reads := state.reads + (unmet ToolCallBlock.id calls state.resolved).length } := by
      intro calls
      induction calls with
      | nil => simp [unmet]
      | cons call calls ih =>
        intro state
        by_cases hmem : call.id ∈ state.resolved
        · simp [Rust.flushOrphan, hmem, ih, unmet]
        · simp [Rust.flushOrphan, hmem, ih, unmet, answers_cons, answer, orphanResult, orphanToolResultText,
            Nat.add_comm, Nat.add_assoc]
    intro state
    simp [Rust.flushOrphans, hcalls]
  have hloop : ∀ (messages : List Message) (state : Rust.OrphanState),
      (Rust.flushOrphans nowMillis (messages.foldl (Rust.synthesizeOrphan nowMillis) state)).output =
        state.output ++ discharge classify ToolCallBlock.id (answer nowMillis) state.reads state.pending
          state.resolved messages := by
    intro messages
    induction messages with
    | nil => simp [hflush, discharge]
    | cons m messages ih =>
      intro state
      rw [List.foldl_cons, ih]
      cases m with
      | user u => simp [Rust.synthesizeOrphan, hflush, discharge, classify]
      | toolResult r => simp [Rust.synthesizeOrphan, discharge, classify]
      | assistant a =>
        cases hreason : a.stopReason <;>
          simp [Rust.synthesizeOrphan, hflush, discharge, classify, AssistantMessage.failed, hreason,
            AssistantMessage.toolCalls]
  exact hloop messages {}

/-- The Rust pipeline is the transformation with `str::trim`'s blanks. -/
theorem transformLegacyMessages_eq (nowMillis : Nat → Int) (messages : List LegacyMessage) (target : TargetModel)
    (normalize : Option NormalizeToolCallId) :
    Rust.transformLegacyMessages nowMillis messages target normalize =
      transform rustBlank nowMillis target normalize (messages.map normalizeLegacyContent) := by
  have himages : ∀ ms : List Message,
      (if target.supportsImages then ms else ms.map Rust.downgradeImages) = imagePass target ms := by
    intro ms
    simp only [imagePass, funext downgradeImages_eq]
  simp only [Rust.transformLegacyMessages, Rust.transformMessages, synthesizeOrphans_eq, himages, transform]
  congr 1
  cases hsupports : target.supportsImages with
  | true =>
    have hid := transformContent_eq target normalize id (fun _ => rfl) (fun u => ⟨u, rfl⟩) (fun r => ⟨r, rfl⟩)
      (messages.map normalizeLegacyContent) []
    simpa [imagePass, hsupports] using hid
  | false =>
    simp only [imagePass, hsupports]
    refine transformContent_eq target normalize downgradeMessage (fun _ => rfl) (fun u => ?_) (fun r => ⟨_, rfl⟩) _ []
    cases hcontent : u.content with
    | text text => exact ⟨u, by simp [downgradeMessage, hcontent]⟩
    | blocks blocks => exact ⟨_, by simp only [downgradeMessage, hcontent]; rfl⟩

end MinionAgent.Transformation
