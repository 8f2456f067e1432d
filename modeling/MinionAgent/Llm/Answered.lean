import Mathlib.Data.List.Forall2
import MinionAgent.Llm.Transformation

/-!
# MinionAgent.Llm.Answered

Every tool call is answered after transformation, whatever the history.

`SurvivesAs` says what may happen to one message on the way, and
`WellTransformed` what the output is: every call answered directly after its
reply, no failed reply, and every other message of the input in its place,
with nothing but orphan results in between.
-/

namespace MinionAgent.Transformation

open Obligation

/-! ## One message -/

/-- A message as the image pass leaves it. -/
def image (target : TargetModel) (m : Message) : Message :=
  if target.supportsImages then m else downgradeMessage m

theorem imagePass_eq_map (target : TargetModel) (messages : List Message) :
    imagePass target messages = messages.map (image target) := by
  unfold imagePass image
  cases target.supportsImages with
  | true => exact (List.map_id' messages).symm
  | false => rfl

@[simp] theorem image_assistant (target : TargetModel) (a : AssistantMessage) :
    image target (.assistant a) = .assistant a := by
  simp [image, downgradeMessage]

theorem exists_image_user (target : TargetModel) (u : UserMessage) : ∃ v, image target (.user u) = .user v := by
  cases hsupports : target.supportsImages <;> cases hcontent : u.content <;>
    simp [image, downgradeMessage, hsupports, hcontent]

theorem exists_image_toolResult (target : TargetModel) (r : ToolResultMessage) :
    ∃ s : ToolResultMessage, image target (.toolResult r) = .toolResult s ∧ s.toolCallId = r.toolCallId := by
  cases hsupports : target.supportsImages <;> simp [image, downgradeMessage, hsupports]

/-- What a call asks for, its ID and signature aside. -/
def requestOf (call : ToolCallBlock) : String × Arguments × Option String :=
  (call.name, call.arguments, call.namespace)

/-- `n` is what `m` becomes: a user message with its images handled, a reply
with the same requests and other fields, a result under some call ID. -/
inductive SurvivesAs (target : TargetModel) : Message → Message → Prop
  | user (u : UserMessage) : SurvivesAs target (.user u) (image target (.user u))
  | assistant (a : AssistantMessage) (content : List AssistantContentBlock)
      (requests : ({ a with content } : AssistantMessage).toolCalls.map requestOf =
        a.toolCalls.map requestOf) :
      SurvivesAs target (.assistant a) (.assistant { a with content })
  | toolResult (r s : ToolResultMessage) (id : String) (h : image target (.toolResult r) = .toolResult s) :
      SurvivesAs target (.toolResult r) (.toolResult { s with toolCallId := id })

theorem failed_downgradeMessage (m : Message) : (downgradeMessage m).failed = m.failed := by
  cases m with
  | assistant a => rfl
  | toolResult r => rfl
  | user u => cases hcontent : u.content <;> simp [downgradeMessage, hcontent]

theorem SurvivesAs.failed_eq {target : TargetModel} {m n : Message} (h : SurvivesAs target m n) :
    n.failed = m.failed := by
  cases h with
  | user u =>
    unfold image
    split
    · rfl
    · exact failed_downgradeMessage _
  | assistant a content => rfl
  | toolResult r s id => rfl

section

variable (blank : String → Bool) (target : TargetModel) (normalize : Option NormalizeToolCallId)

/-- A reply's calls are rewritten one by one; none is added or dropped. -/
theorem toolCalls_newAssistant (a : AssistantMessage) :
    (newAssistant blank target normalize a).toolCalls = a.toolCalls.map (newCall target normalize a) := by
  have hblock : ∀ block : AssistantContentBlock,
      (newBlock blank target normalize a block).filterMap AssistantContentBlock.toolCall? =
        (block.toolCall?.map (newCall target normalize a)).toList := by
    intro block
    cases block with
    | text text => rfl
    | toolCall call => rfl
    | thinking thinking =>
      simp only [newBlock, newThinking, AssistantContentBlock.toolCall?, Option.map_none, Option.toList_none]
      split_ifs <;> rfl
  have hblocks : ∀ blocks : List AssistantContentBlock,
      (blocks.flatMap (newBlock blank target normalize a)).filterMap AssistantContentBlock.toolCall? =
        (blocks.filterMap AssistantContentBlock.toolCall?).map (newCall target normalize a) := by
    intro blocks
    induction blocks with
    | nil => rfl
    | cons block blocks ih =>
      rw [List.flatMap_cons, List.filterMap_append, ih, hblock, List.filterMap_cons]
      cases block.toolCall? <;> simp
  exact hblocks a.content

theorem survivesAs_newAssistant (a : AssistantMessage) :
    SurvivesAs target (.assistant a) (.assistant (newAssistant blank target normalize a)) := by
  refine .assistant a (a.content.flatMap (newBlock blank target normalize a)) ?_
  have hcalls := toolCalls_newAssistant blank target normalize a
  simp only [newAssistant] at hcalls
  rw [hcalls, List.map_map]
  rfl

/-- The two message passes turn each message into one it survives as. -/
theorem forall₂_contentPass (messages : List Message) (idMap : IdMap) :
    List.Forall₂ (SurvivesAs target) messages
      (contentPass blank target normalize idMap (imagePass target messages)) := by
  rw [imagePass_eq_map]
  induction messages generalizing idMap with
  | nil => exact .nil
  | cons m messages ih =>
    cases m with
    | user u =>
      obtain ⟨v, hv⟩ := exists_image_user target u
      rw [List.map_cons, hv, contentPass, ← hv]
      exact .cons (.user u) (ih idMap)
    | toolResult r =>
      obtain ⟨s, hs, -⟩ := exists_image_toolResult target r
      rw [List.map_cons, hs, contentPass]
      exact .cons (.toolResult r s _ hs) (ih idMap)
    | assistant a =>
      rw [List.map_cons, image_assistant, contentPass]
      exact .cons (survivesAs_newAssistant blank target normalize a) (ih _)

end

/-! ## The whole output -/

/-- What a transformed history is, for its input. -/
structure WellTransformed (target : TargetModel) (input output : List Message) : Prop where
  /-- Every call is answered among the results directly after its reply. -/
  answered : ∀ (before : List Message) (a : AssistantMessage) (after : List Message),
    output = before ++ .assistant a :: after → ∀ call ∈ a.toolCalls,
      ∃ r : ToolResultMessage, .toolResult r ∈ after.takeWhile Message.isToolResult ∧ r.toolCallId = call.id
  /-- No failed reply is left. -/
  notFailed : ∀ m ∈ output, m.failed = false
  /-- Everything else survives in order, between orphan results only. -/
  survivors : ∃ kept : List Message,
    List.Forall₂ (SurvivesAs target) (input.filter fun m => !m.failed) kept ∧
      Padded (fun m => ∃ timestamp call, m = .toolResult (orphanResult timestamp call)) kept output

/-- Whatever counts as blank, the transformed history is well formed. -/
theorem wellTransformed_transform (blank : String → Bool) (nowMs : Nat → Int) (target : TargetModel)
    (normalize : Option NormalizeToolCallId) (input : List Message) :
    WellTransformed target input (transform blank nowMs target normalize input) := by
  let content := contentPass blank target normalize [] (imagePass target input)
  have hpadded : Padded _ _ (transform blank nowMs target normalize input) := padded_orphanPass nowMs content
  refine ⟨?_, ?_, content.filter fun m => !m.failed, ?_, ?_⟩
  · intro before a after hout call hcall
    have hclosed := closed_discharge (classify_answer nowMs) content
    have hmem : .assistant a ∈ transform blank nowMs target normalize input := by simp [hout]
    -- a reply in the output was kept, so it raises its calls
    have hfailed : a.failed = false := by
      rcases hpadded.mem hmem with hkept | ⟨m, k, horphan⟩
      · simpa using (List.mem_filter.mp hkept).2
      · simp [answer] at horphan
    have hsuffix : (.assistant a :: after) <:+ discharge classify ToolCallBlock.id (answer nowMs) 0 [] [] content :=
      ⟨before, hout.symm⟩
    obtain ⟨m, hm, hmeets⟩ := hclosed (.assistant a) after hsuffix call
      (by simp [classify, hfailed, Event.raised, hcall])
    simp only [isMeeting_classify] at hm
    cases m with
    | toolResult r => exact ⟨r, hm, by simpa [classify] using hmeets⟩
    | user u => simp [classify] at hmeets
    | assistant b =>
      have := List.all_takeWhile (p := Message.isToolResult) (l := after)
      simpa using List.all_eq_true.mp this _ hm
  · intro m hm
    rcases hpadded.mem hm with hkept | ⟨n, k, rfl⟩
    · simpa using (List.mem_filter.mp hkept).2
    · rfl
  · have hsurvive := forall₂_contentPass blank target normalize input []
    exact List.rel_filter (fun m n h => by simp [h.failed_eq]) hsurvive
  · apply hpadded.mono
    intro m hm
    obtain ⟨i, k, hm⟩ := hm
    exact ⟨nowMs i, k, hm⟩

/-- Every tool call is answered after transformation, in both bindings. -/
theorem toolCalls_answered (nowMs : Nat → Int) (messages : List LegacyMessage) (target : TargetModel)
    (normalize : Option NormalizeToolCallId) :
    WellTransformed target (messages.map normalizeLegacyContent)
        (transformMessages nowMs messages target normalize) ∧
      WellTransformed target (messages.map normalizeLegacyContent)
        (Rust.transformLegacyMessages nowMs messages target normalize) := by
  rw [transformMessages_eq, transformLegacyMessages_eq]
  exact ⟨wellTransformed_transform _ _ _ _ _, wellTransformed_transform _ _ _ _ _⟩

end MinionAgent.Transformation
