import MinionAgent.Session.Log

/-!
# MinionAgent.Session.Lossless

What `encode_message` renders is data the log accepts, wherever the free-form
fields of the message are.

* `isJsonSafe` — the values `_check_json_safe` raises nothing for;
* `Message.FreeFormSafe` — the free-form fields of a message are such values;
* `codec_lossless` — an encoded message is accepted and restored.
-/

namespace MinionAgent

open Py

/-! ## JSON-safe values -/

mutual

/-- The values that JSON can represent. -/
def isJsonSafe : Value → Bool
  | .scalar _ => true
  | .list xs | .tuple xs => areJsonSafe xs
  | .dict items => itemsJsonSafe items
  | .mixedDict _ _ => false
  | .other _ => false

/-- The same for every element. -/
def areJsonSafe : List Value → Bool
  | [] => true
  | x :: xs => isJsonSafe x && areJsonSafe xs

/-- The same for every item. -/
def itemsJsonSafe : List (String × Value) → Bool
  | [] => true
  | (_, x) :: items => isJsonSafe x && itemsJsonSafe items

end

mutual

/-- The check raises nothing for JSON-safe values, and only for them. -/
theorem jsonUnsafe?_eq_none (keys path : String) : ∀ v, jsonUnsafe? keys path v = none ↔ isJsonSafe v = true
  | .scalar s => by simp [jsonUnsafe?, isJsonSafe]
  | .list xs => by simp [jsonUnsafe?, isJsonSafe, jsonUnsafeElem?_eq_none keys path 0 xs]
  | .tuple xs => by simp [jsonUnsafe?, isJsonSafe, jsonUnsafeElem?_eq_none keys path 0 xs]
  | .dict items => by simp [jsonUnsafe?, isJsonSafe, jsonUnsafeItem?_eq_none keys path items]
  | .mixedDict items key => by simp [jsonUnsafe?, isJsonSafe]
  | .other typeName => by simp [jsonUnsafe?, isJsonSafe]

theorem jsonUnsafeElem?_eq_none (keys path : String) (i : Nat) :
    ∀ xs, jsonUnsafeElem? keys path i xs = none ↔ areJsonSafe xs = true
  | [] => by simp [jsonUnsafeElem?, areJsonSafe]
  | x :: xs => by
    simp [jsonUnsafeElem?, areJsonSafe, jsonUnsafe?_eq_none keys _ x, jsonUnsafeElem?_eq_none keys path (i + 1) xs]

theorem jsonUnsafeItem?_eq_none (keys path : String) :
    ∀ items, jsonUnsafeItem? keys path items = none ↔ itemsJsonSafe items = true
  | [] => by simp [jsonUnsafeItem?, itemsJsonSafe]
  | (key, x) :: items => by
    simp [jsonUnsafeItem?, itemsJsonSafe, jsonUnsafe?_eq_none keys _ x, jsonUnsafeItem?_eq_none keys path items]

end

@[simp] theorem isJsonSafe_scalar (s : Scalar) : isJsonSafe (.scalar s) = true := by simp [isJsonSafe]
@[simp] theorem isJsonSafe_list (xs : List Value) : isJsonSafe (.list xs) = areJsonSafe xs := by simp [isJsonSafe]
@[simp] theorem isJsonSafe_dict (items : Dict) : isJsonSafe (.dict items) = itemsJsonSafe items := by simp [isJsonSafe]
@[simp] theorem itemsJsonSafe_nil : itemsJsonSafe [] = true := by simp [itemsJsonSafe]

@[simp] theorem itemsJsonSafe_cons (item : String × Value) (items : Dict) :
    itemsJsonSafe (item :: items) = (isJsonSafe item.2 && itemsJsonSafe items) := by simp [itemsJsonSafe]

@[simp] theorem itemsJsonSafe_append (items items' : Dict) :
    itemsJsonSafe (items ++ items') = (itemsJsonSafe items && itemsJsonSafe items') := by
  induction items with
  | nil => simp
  | cons item items ih => simp [ih, Bool.and_assoc]

/-- An entry that may be left out is safe where its value is. -/
theorem itemsJsonSafe_entry {key : String} {v : Option Value} (h : ∀ x ∈ v, isJsonSafe x = true) :
    itemsJsonSafe (Value.entry key v) = true := by
  cases v with
  | none => simp [Value.entry]
  | some x => simp [Value.entry, h x rfl]

theorem areJsonSafe_map {α : Type} {encode : α → Value} {xs : List α} (h : ∀ x ∈ xs, isJsonSafe (encode x) = true) :
    areJsonSafe (xs.map encode) = true := by
  induction xs with
  | nil => simp [areJsonSafe]
  | cons x xs ih =>
    have hx := h x List.mem_cons_self
    have hxs := ih fun y hy => h y (List.mem_cons_of_mem _ hy)
    simp [areJsonSafe, hx, hxs]

/-! ## Free-form fields -/

/-- The arguments of a tool call are JSON-safe. -/
def AssistantContentBlock.FreeFormSafe : AssistantContentBlock → Prop
  | .toolCall call => isJsonSafe call.arguments.value = true
  | _ => True

/-- The details of a diagnostic are JSON-safe. -/
def AssistantMessageDiagnostic.FreeFormSafe (diagnostic : AssistantMessageDiagnostic) : Prop :=
  ∀ details ∈ diagnostic.details, isJsonSafe (.dict details) = true

/-- The data of a deferred handle is JSON-safe. -/
def DeferredHandle.FreeFormSafe (handle : DeferredHandle) : Prop :=
  ∀ data ∈ handle.data, isJsonSafe data.value = true

/-- Tool arguments, details and deferred data are JSON-safe. -/
def Message.FreeFormSafe : Message → Prop
  | .user _ => True
  | .assistant m =>
    (∀ block ∈ m.content, block.FreeFormSafe) ∧
      (∀ diagnostics ∈ m.diagnostics, ∀ diagnostic ∈ diagnostics, diagnostic.FreeFormSafe) ∧
      ∀ handle ∈ m.deferred, handle.FreeFormSafe
  | .toolResult m => ∀ details ∈ m.details, isJsonSafe details.value = true

/-! ## Encoded messages -/

/-- An optional field that is rendered as a scalar. -/
theorem itemsJsonSafe_entry_scalar {α : Type} (key : String) (render : α → Scalar) (field : Option α) :
    itemsJsonSafe (Value.entry key (field.map fun x => .scalar (render x))) = true := by
  refine itemsJsonSafe_entry fun x hx => ?_
  obtain ⟨a, -, rfl⟩ := Option.map_eq_some_iff.mp hx
  simp

/-- An optional field that is rendered as a safe value. -/
theorem itemsJsonSafe_entry_map {α : Type} {key : String} {encode : α → Value} {field : Option α}
    (h : ∀ a ∈ field, isJsonSafe (encode a) = true) : itemsJsonSafe (Value.entry key (field.map encode)) = true := by
  refine itemsJsonSafe_entry fun x hx => ?_
  obtain ⟨a, ha, rfl⟩ := Option.map_eq_some_iff.mp hx
  exact h a ha

theorem isJsonSafe_encodeTextBlock (block : TextBlock) : isJsonSafe (encodeTextBlock block) = true := by
  have hsignature := itemsJsonSafe_entry_scalar "text_signature" Scalar.str block.textSignature
  simp [encodeTextBlock, hsignature]

theorem isJsonSafe_encodeThinkingBlock (block : ThinkingBlock) : isJsonSafe (encodeThinkingBlock block) = true := by
  have hsignature := itemsJsonSafe_entry_scalar "thinking_signature" Scalar.str block.thinkingSignature
  have hredacted : itemsJsonSafe (Value.entry "redacted" (if block.redacted then some (.bool true) else none)) =
      true := by
    cases block.redacted <;> simp [Value.entry]
  simp [encodeThinkingBlock, hsignature, hredacted]

theorem isJsonSafe_encodeImageBlock (block : ImageBlock) : isJsonSafe (encodeImageBlock block) = true := by
  cases hsource : block.source <;> simp [encodeImageBlock, hsource]

theorem isJsonSafe_encodeUserBlock (block : UserContentBlock) : isJsonSafe (encodeUserBlock block) = true := by
  cases block with
  | text block => exact isJsonSafe_encodeTextBlock block
  | image block => exact isJsonSafe_encodeImageBlock block

theorem isJsonSafe_encodeToolCallBlock {block : ToolCallBlock} (h : isJsonSafe block.arguments.value = true) :
    isJsonSafe (encodeToolCallBlock block) = true := by
  have hthought := itemsJsonSafe_entry_scalar "thought_signature" Scalar.str block.thoughtSignature
  have hnamespace := itemsJsonSafe_entry_scalar "namespace" Scalar.str block.namespace
  simp [encodeToolCallBlock, h, hthought, hnamespace]

theorem isJsonSafe_encodeAssistantBlock {block : AssistantContentBlock} (h : block.FreeFormSafe) :
    isJsonSafe (encodeAssistantBlock block) = true := by
  cases block with
  | text block => exact isJsonSafe_encodeTextBlock block
  | thinking block => exact isJsonSafe_encodeThinkingBlock block
  | toolCall block => exact isJsonSafe_encodeToolCallBlock h

theorem isJsonSafe_optionalInt (i : Option Int) : isJsonSafe (optionalInt i) = true := by
  cases i <;> simp [optionalInt]

theorem isJsonSafe_optionalStr (s : Option String) : isJsonSafe (optionalStr s) = true := by
  cases s <;> simp [optionalStr]

theorem isJsonSafe_encodeUsage (usage : Usage) : isJsonSafe (encodeUsage usage) = true := by
  simp [encodeUsage, isJsonSafe_optionalInt]

theorem isJsonSafe_encodeDiagnosticError (error : DiagnosticError) :
    isJsonSafe (encodeDiagnosticError error) = true := by
  have hname := itemsJsonSafe_entry_scalar "name" Scalar.str error.name
  have hstack := itemsJsonSafe_entry_scalar "stack" Scalar.str error.stack
  have hcode : itemsJsonSafe (Value.entry "code" (error.code.map encodeCode)) = true :=
    itemsJsonSafe_entry_map fun code _ => by cases code <;> simp [encodeCode]
  simp [encodeDiagnosticError, hname, hstack, hcode]

theorem isJsonSafe_encodeDiagnostic {diagnostic : AssistantMessageDiagnostic} (h : diagnostic.FreeFormSafe) :
    isJsonSafe (encodeDiagnostic diagnostic) = true := by
  have herror : itemsJsonSafe (Value.entry "error" (diagnostic.error.map encodeDiagnosticError)) = true :=
    itemsJsonSafe_entry_map fun error _ => isJsonSafe_encodeDiagnosticError error
  have hdetails : itemsJsonSafe (Value.entry "details" (diagnostic.details.map .dict)) = true :=
    itemsJsonSafe_entry_map h
  simp [encodeDiagnostic, herror, hdetails]

theorem isJsonSafe_encodeDeferred {handle : DeferredHandle} (h : handle.FreeFormSafe) :
    isJsonSafe (encodeDeferred handle) = true := by
  have hexpires := itemsJsonSafe_entry_scalar "expires_at" Scalar.int handle.expiresAt
  have hpoll := itemsJsonSafe_entry_scalar "poll_after_ms" Scalar.int handle.pollAfterMs
  have hdata : itemsJsonSafe (Value.entry "data" (handle.data.map Present.value)) = true := itemsJsonSafe_entry_map h
  simp [encodeDeferred, hexpires, hpoll, hdata]

theorem isJsonSafe_encodeUserContent (content : UserContent) : isJsonSafe (encodeUserContent content) = true := by
  cases content with
  | text text => simp [encodeUserContent]
  | blocks blocks => simpa [encodeUserContent] using areJsonSafe_map fun block _ => isJsonSafe_encodeUserBlock block

theorem isJsonSafe_encodeAssistantMessage {m : AssistantMessage} (h : (Message.assistant m).FreeFormSafe) :
    isJsonSafe (encodeMessage (.assistant m)) = true := by
  obtain ⟨hcontent, hdiagnostics, hdeferred⟩ := h
  have hblocks : areJsonSafe (m.content.map encodeAssistantBlock) = true :=
    areJsonSafe_map fun block hblock => isJsonSafe_encodeAssistantBlock (hcontent block hblock)
  have hmodel := itemsJsonSafe_entry_scalar "response_model" Scalar.str m.responseModel
  have hid := itemsJsonSafe_entry_scalar "response_id" Scalar.str m.responseId
  have hreason := itemsJsonSafe_entry_scalar "raw_stop_reason" Scalar.str m.rawStopReason
  have hend := itemsJsonSafe_entry_scalar "end_turn" Scalar.bool m.endTurn
  have hlist : itemsJsonSafe (Value.entry "diagnostics"
      (m.diagnostics.map fun ds => .list (ds.map encodeDiagnostic))) = true :=
    itemsJsonSafe_entry_map fun ds hds => by
      rw [isJsonSafe_list]
      exact areJsonSafe_map fun d hd => isJsonSafe_encodeDiagnostic (hdiagnostics ds hds d hd)
  have hhandle : itemsJsonSafe (Value.entry "deferred" (m.deferred.map encodeDeferred)) = true :=
    itemsJsonSafe_entry_map fun handle hhandle => isJsonSafe_encodeDeferred (hdeferred handle hhandle)
  simp [encodeMessage, hblocks, hmodel, hid, hreason, hend, hlist, hhandle, isJsonSafe_optionalStr,
    isJsonSafe_encodeUsage]

theorem isJsonSafe_encodeToolResult {m : ToolResultMessage} (h : (Message.toolResult m).FreeFormSafe) :
    isJsonSafe (encodeMessage (.toolResult m)) = true := by
  have hblocks : areJsonSafe (m.content.map encodeUserBlock) = true :=
    areJsonSafe_map fun block _ => isJsonSafe_encodeUserBlock block
  have hdetails : itemsJsonSafe (Value.entry "details" (m.details.map Present.value)) = true :=
    itemsJsonSafe_entry_map h
  have husage : itemsJsonSafe (Value.entry "usage" (m.usage.map encodeUsage)) = true :=
    itemsJsonSafe_entry_map fun usage _ => isJsonSafe_encodeUsage usage
  have hnames : itemsJsonSafe (Value.entry "added_tool_names"
      (m.addedToolNames.map fun names => .list (names.map .str))) = true :=
    itemsJsonSafe_entry_map fun names _ => by
      rw [isJsonSafe_list]
      exact areJsonSafe_map fun _ _ => by simp
  simp [encodeMessage, hblocks, hdetails, husage, hnames]

theorem isJsonSafe_encodeMessage {m : Message} (h : m.FreeFormSafe) : isJsonSafe (encodeMessage m) = true := by
  cases m with
  | user m => simp [encodeMessage, isJsonSafe_encodeUserContent]
  | assistant m => exact isJsonSafe_encodeAssistantMessage h
  | toolResult m => exact isJsonSafe_encodeToolResult h

/-- An encoded message is accepted by the log's check, by itself and as the
`message` of an event, and it is restored. -/
theorem codec_lossless (m : Message) (h : m.FreeFormSafe) :
    jsonUnsafe? "object keys" "data" (encodeMessage m) = none ∧
      checkJsonSafe [("message", encodeMessage m)] = .ok () ∧ decodeMessage (encodeMessage m) = some m := by
  have hsafe := isJsonSafe_encodeMessage h
  refine ⟨(jsonUnsafe?_eq_none _ _ _).mpr hsafe, ?_, decode_encode m⟩
  have hdata : jsonUnsafe? "object keys" "data" (.dict [("message", encodeMessage m)]) = none :=
    (jsonUnsafe?_eq_none _ _ _).mpr (by simp [hsafe])
  rw [checkJsonSafe, hdata]

/-- A tool result with structured details. -/
def structuredResult : Message := .toolResult
  { toolCallId := "call", content := [.text { text := "ok" }], timestamp := 1, toolName := "read",
    details := some ⟨.dict [("lines", .list [.int 1, .none])], by decide⟩ }

theorem codec_lossless_structured : jsonUnsafe? "object keys" "data" (encodeMessage structuredResult) = none ∧
    checkJsonSafe [("message", encodeMessage structuredResult)] = .ok () ∧
      decodeMessage (encodeMessage structuredResult) = some structuredResult :=
  codec_lossless structuredResult fun details hdetails => by
    cases hdetails
    decide

end MinionAgent
