import MinionAgent.Llm.Answered

/-!
# MinionAgent.Llm.Idempotence

A transformed history is not changed by another transformation for the same
target, where no normalizer rewrites call IDs.

* `rewritten_rewritten` — image pass and content pass rewrite each message on
  its own, and leave a rewritten one as it is;
* `orphanPass_orphanPass` — the orphan pass finds every call answered;
* `transform_transform` — neither pass undoes what the other relies on.
-/

namespace MinionAgent.Transformation

open Obligation

variable (blank : String → Bool) (target : TargetModel)

/-! ## Each message on its own -/

/-- The content of a message, without a normalizer. -/
def content : Message → Message
  | .assistant m => .assistant (newAssistant blank target none m)
  | m => m

/-- What becomes of a message in the image pass and the content pass. -/
def rewritten (m : Message) : Message := content blank target (image target m)

theorem newId_none (source : AssistantMessage) (id : String) : newId target none source id = id := by
  unfold newId
  split
  · next hnone => cases hnone
  · rfl

theorem rewritings_none (source : AssistantMessage) : rewritings target none source = [] := by
  simp [rewritings, newId_none]

/-- Without a normalizer no binding is added. -/
theorem contentPass_none (messages : List Message) :
    contentPass blank target none [] messages = messages.map (content blank target) := by
  induction messages with
  | nil => rfl
  | cons m messages ih =>
    cases m with
    | user u => rw [contentPass, ih]; rfl
    | toolResult r => rw [contentPass, ih]; rfl
    | assistant a => rw [contentPass, rewritings_none, List.nil_append, ih]; rfl

theorem replaceImagesWithPlaceholder_twice (placeholder : String) (previous previous' : Bool)
    (blocks : List UserContentBlock) :
    replaceImagesWithPlaceholder placeholder previous' (replaceImagesWithPlaceholder placeholder previous blocks) =
      replaceImagesWithPlaceholder placeholder previous blocks := by
  induction blocks generalizing previous previous' with
  | nil => rfl
  | cons block blocks ih =>
    cases block with
    | text text =>
      simp only [replaceImagesWithPlaceholder]
      rw [ih]
    | image image =>
      rw [replaceImagesWithPlaceholder]
      split
      · exact ih true previous'
      · rw [replaceImagesWithPlaceholder, ih]

theorem downgradeMessage_twice (m : Message) : downgradeMessage (downgradeMessage m) = downgradeMessage m := by
  cases m with
  | assistant a => rfl
  | toolResult r => simp only [downgradeMessage, replaceImagesWithPlaceholder_twice]
  | user u => cases hcontent : u.content <;> simp [downgradeMessage, hcontent, replaceImagesWithPlaceholder_twice]

theorem image_image (m : Message) : image target (image target m) = image target m := by
  unfold image
  split
  · rfl
  · exact downgradeMessage_twice m

/-- What is kept of a block for a model is kept again. -/
theorem flatMap_newBlock_newBlock (source : AssistantMessage) (block : AssistantContentBlock) :
    (newBlock blank target none source block).flatMap (newBlock blank target none source) =
      newBlock blank target none source block := by
  cases block with
  | text text => cases hsame : isSameModel source target <;> simp [newBlock, hsame]
  | toolCall call =>
    have hcall : newCall target none source (newCall target none source call) = newCall target none source call := by
      simp only [newCall, newId_none]
      cases isSameModel source target with
      | true => simp
      | false =>
        cases hsigned : truthy call.thoughtSignature with
        | false => simp [hsigned]
        | true => simp [truthy]
    simp [newBlock, hcall]
  | thinking thinking =>
    have hkept (h : newThinking blank (isSameModel source target) thinking = [.thinking thinking]) :
        (newBlock blank target none source (.thinking thinking)).flatMap (newBlock blank target none source) =
          newBlock blank target none source (.thinking thinking) := by
      simp [newBlock, h]
    by_cases hdropped : newThinking blank (isSameModel source target) thinking = []
    · simp [newBlock, hdropped]
    · cases hsame : isSameModel source target with
      | true =>
        refine hkept ?_
        simp only [hsame, newThinking] at hdropped ⊢
        grind
      | false =>
        -- another model's thinking is a text from now on
        have htext : newThinking blank false thinking = [.text { text := thinking.thinking }] := by
          simp only [hsame, newThinking] at hdropped ⊢
          grind
        simp [newBlock, hsame, htext]

theorem newAssistant_newAssistant (source : AssistantMessage) :
    newAssistant blank target none (newAssistant blank target none source) = newAssistant blank target none source := by
  have hsource : newBlock blank target none (newAssistant blank target none source) =
      newBlock blank target none source := by
    funext block
    cases block with
    | text text => rfl
    | thinking thinking => rfl
    | toolCall call => simp only [newBlock, newCall, newId_none]; rfl
  rw [newAssistant, hsource]
  simp only [newAssistant, List.flatMap_assoc, flatMap_newBlock_newBlock]

theorem image_content (m : Message) :
    image target (content blank target m) = content blank target (image target m) := by
  cases m with
  | assistant a => rw [image_assistant, content, image_assistant]
  | user u =>
    obtain ⟨v, hv⟩ := exists_image_user target u
    show image target (.user u) = content blank target (image target (.user u))
    rw [hv]
    rfl
  | toolResult r =>
    obtain ⟨s, hs, _⟩ := exists_image_toolResult target r
    show image target (.toolResult r) = content blank target (image target (.toolResult r))
    rw [hs]
    rfl

/-- A rewritten message is left as it is. -/
theorem rewritten_rewritten (m : Message) :
    rewritten blank target (rewritten blank target m) = rewritten blank target m := by
  have hcontent (m : Message) : content blank target (content blank target m) = content blank target m := by
    cases m with
    | assistant a => exact congrArg Message.assistant (newAssistant_newAssistant blank target a)
    | user u => rfl
    | toolResult r => rfl
  simp only [rewritten, image_content, image_image, hcontent]

/-- So is an orphan's answer. -/
theorem rewritten_answer (nowMs : Nat → Int) (n : Nat) (call : ToolCallBlock) :
    rewritten blank target (answer nowMs n call) = answer nowMs n call := by
  rw [rewritten, image]
  split
  · rfl
  · rfl

/-! ## The passes together -/

/-- The orphan pass finds no orphan and no failed reply after itself. -/
theorem orphanPass_orphanPass (nowMs nowMs' : Nat → Int) (messages : List Message) :
    orphanPass nowMs' (orphanPass nowMs messages) = orphanPass nowMs messages := by
  have hclosed : Closed classify ToolCallBlock.id (orphanPass nowMs messages) :=
    closed_discharge (classify_answer nowMs) messages
  have hkept : ∀ m ∈ orphanPass nowMs messages, (!(classify m).isDiscarded) = true := by
    intro m hm
    obtain hfilter | ⟨n, call, rfl⟩ := (padded_orphanPass nowMs messages).mem hm
    · rw [isDiscarded_classify]
      exact (List.mem_filter.mp hfilter).2
    · rfl
  show discharge classify ToolCallBlock.id (answer nowMs') 0 [] [] (orphanPass nowMs messages) = _
  rw [discharge_of_closed _ 0 [] [] hclosed (by simp [unmet]), List.filter_eq_self.mpr hkept]

/-- A transformed history is transformed already, whatever the clock says. -/
theorem transform_transform (nowMs nowMs' : Nat → Int) (messages : List Message) :
    transform blank nowMs' target none (transform blank nowMs target none messages) =
      transform blank nowMs target none messages := by
  have htransform (nowMs : Nat → Int) (messages : List Message) :
      transform blank nowMs target none messages = orphanPass nowMs (messages.map (rewritten blank target)) := by
    rw [transform, contentPass_none, imagePass_eq_map, List.map_map]
    rfl
  have hrewritten : ∀ m ∈ orphanPass nowMs (messages.map (rewritten blank target)), rewritten blank target m = m := by
    intro m hm
    obtain hfilter | ⟨n, call, rfl⟩ := (padded_orphanPass nowMs _).mem hm
    · obtain ⟨source, _, rfl⟩ := List.mem_map.mp (List.mem_filter.mp hfilter).1
      exact rewritten_rewritten blank target source
    · exact rewritten_answer blank target nowMs n call
  rw [htransform, htransform nowMs messages, List.map_congr_left hrewritten, List.map_id', orphanPass_orphanPass]

/-- A transformed history, given to the transformation again. -/
def given (messages : List Message) : List LegacyMessage := messages.map fun m => { message := m }

/-- Both bindings' transformations are idempotent without a normalizer. -/
theorem transformMessages_idempotent (nowMs nowMs' : Nat → Int) (messages : List LegacyMessage) :
    transformMessages nowMs' (given (transformMessages nowMs messages target none)) target none =
        transformMessages nowMs messages target none ∧
      Rust.transformLegacyMessages nowMs' (given (Rust.transformLegacyMessages nowMs messages target none))
          target none =
        Rust.transformLegacyMessages nowMs messages target none := by
  have hgiven (messages : List Message) : (given messages).map normalizeLegacyContent = messages := by
    rw [given, List.map_map]
    exact List.map_id'' (fun _ => rfl) messages
  simp only [transformMessages_eq, transformLegacyMessages_eq, hgiven, transform_transform, and_self]

end MinionAgent.Transformation
