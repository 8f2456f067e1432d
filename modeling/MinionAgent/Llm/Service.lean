import MinionAgent.Library.JsonRoundTrip
import MinionAgent.Llm.Messages

/-!
# MinionAgent.Llm.Service

Requests and the streams that answer them (`llm/tools.py`, `llm/stream.py`,
`llm/service.py`): tool schemas, the chunk vocabulary, and the boundary that
settles whatever an adapter returns.

* `ToolSchema.asJson`, `ToolSchema.ofJson?` — a schema and its stored form,
  which is read back with its keys sorted (`ofJson?_asJson`);
* `settled` — every returned stream ends with one terminal chunk.
-/

namespace MinionAgent

open Py

/-! ## Tool schemas -/

mutual

/-- `_canonical`: recursively sort mapping keys so equal content compares
equal. -/
def canonical : Value → Value
  | .list xs | .tuple xs => .list (canonicalElems xs)
  | .dict items => .dict ((canonicalItems items).insertionSort Json.byKey)
  | .scalar s => .scalar s
  | .mixedDict items key => .mixedDict items key
  | .other typeName => .other typeName

def canonicalElems : List Value → List Value
  | [] => []
  | x :: xs => canonical x :: canonicalElems xs

def canonicalItems : List (String × Value) → List (String × Value)
  | [] => []
  | (key, x) :: items => (key, canonical x) :: canonicalItems items

end

/-- The `strict` field of the `json_schema` variant. -/
inductive Strictness
  | prefer
  | require
deriving DecidableEq

def Strictness.value : Strictness → String
  | .prefer => "prefer"
  | .require => "require"

/-- `JsonSchemaConstrainedSampling | GrammarConstrainedSampling`. -/
inductive ConstrainedSampling
  | jsonSchema (strict : Strictness)
  | grammar (openaiLark openaiRegex : Option String)
deriving DecidableEq

/-- `ConstrainedSampling | Literal[False] | None`. -/
inductive SamplingPreference
  | absent
  | disabled
  | chosen (sampling : ConstrainedSampling)
deriving DecidableEq

/-- One tool as the model sees it. -/
structure ToolSchema where
  name : String
  description : String
  parameters : List (String × Value)
  constrainedSampling : SamplingPreference := .absent
deriving DecidableEq

/-- The JSON form of a preference. -/
def SamplingPreference.asJson : SamplingPreference → Value
  | .absent => .none
  | .disabled => .bool false
  | .chosen (.jsonSchema strict) => .dict [("type", .str "json_schema"), ("strict", .str strict.value)]
  | .chosen (.grammar openaiLark openaiRegex) =>
    .dict [("type", .str "grammar"),
      ("variants", .dict (Value.entry "openai_lark" (openaiLark.map .str) ++
        Value.entry "openai_regex" (openaiRegex.map .str)))]

/-- `as_json`: the canonical JSON-safe form. -/
def ToolSchema.asJson (schema : ToolSchema) : Value :=
  .dict [("name", .str schema.name), ("description", .str schema.description),
    ("parameters", canonical (.dict schema.parameters)),
    ("constrained_sampling", canonical schema.constrainedSampling.asJson)]

/-- `keys() == {a, b}` of a dict. -/
def hasExactlyKeys (items : List (String × Value)) (a b : String) : Bool :=
  (items.lookup a).isSome && (items.lookup b).isSome && items.all fun item => item.1 == a || item.1 == b

/-- The text of an item of a grammar's variants. -/
def variant? (variants : List (String × Value)) (key : String) : Option (Option String) :=
  match variants.lookup key with
  | none => some none
  | some value => value.str?.map some

/-- `_constrained_sampling`: anything but the four certified states is
rejected. -/
def SamplingPreference.ofJson? : Option Value → Option SamplingPreference
  | none | some .none => some .absent
  | some (.bool false) => some .disabled
  | some (.dict items) =>
    if hasExactlyKeys items "type" "strict" && items.lookup "type" == some (.str "json_schema") then
      if items.lookup "strict" = some (.str "prefer") then some (.chosen (.jsonSchema .prefer))
      else if items.lookup "strict" = some (.str "require") then some (.chosen (.jsonSchema .require))
      else none
    else if hasExactlyKeys items "type" "variants" && items.lookup "type" == some (.str "grammar") then
      match items.lookup "variants" with
      | some (.dict variants) =>
        if variants.all fun item => item.1 == "openai_lark" || item.1 == "openai_regex" then do
          return .chosen (.grammar (← variant? variants "openai_lark") (← variant? variants "openai_regex"))
        else
          none
      | _ => none
    else
      none
  | some _ => none

/-- One entry of the stored schemas. -/
def ToolSchema.ofJson? (entry : Value) : Option ToolSchema := do
  return {
    name := ← (← entry.get? "name").str?
    description := ← (← entry.get? "description").str?
    parameters := ← (← entry.get? "parameters").items?
    constrainedSampling := ← SamplingPreference.ofJson? (entry.get? "constrained_sampling") }

/-- Equality of schemas: the order of a mapping's keys does not count. -/
structure ToolSchema.Same (schema other : ToolSchema) : Prop where
  name : schema.name = other.name
  description : schema.description = other.description
  parameters : Json.sortKeys (.dict schema.parameters) = Json.sortKeys (.dict other.parameters)
  constrainedSampling : schema.constrainedSampling = other.constrainedSampling

/-! ## Schemas are read back -/

mutual

/-- On JSON values, canonical is sorted. -/
theorem canonical_eq_sortKeys (value : Value) (h : value.IsJson) : canonical value = Json.sortKeys value := by
  match value, h with
  | .scalar s, _ => rfl
  | .list xs, h => rw [canonical, Json.sortKeys, canonicalElems_eq xs h]
  | .dict items, h =>
    rw [Value.IsJson] at h
    rw [canonical, Json.sortKeys, canonicalItems_eq items h.2]

theorem canonicalElems_eq (xs : List Value) (h : Value.IsJsonList xs) :
    canonicalElems xs = Json.sortKeysElems xs := by
  match xs, h with
  | [], _ => rfl
  | x :: xs, h =>
    rw [Value.IsJsonList] at h
    rw [canonicalElems, Json.sortKeysElems, canonical_eq_sortKeys x h.1, canonicalElems_eq xs h.2]

theorem canonicalItems_eq (items : List (String × Value)) (h : Value.IsJsonItems items) :
    canonicalItems items = Json.sortKeysItems items := by
  match items, h with
  | [], _ => rfl
  | (key, x) :: items, h =>
    rw [Value.IsJsonItems] at h
    rw [canonicalItems, Json.sortKeysItems, canonical_eq_sortKeys x h.1, canonicalItems_eq items h.2]

end

theorem sortKeys_canonical {value : Value} (h : value.IsJson) :
    Json.sortKeys (canonical value) = Json.sortKeys value := by
  rw [canonical_eq_sortKeys value h, Json.sortKeys_idem]

/-- A grammar's stored form is in order as it is written. -/
theorem sortKeys_grammar (openaiLark openaiRegex : Option String) :
    Json.sortKeys (SamplingPreference.chosen (.grammar openaiLark openaiRegex)).asJson =
      (SamplingPreference.chosen (.grammar openaiLark openaiRegex)).asJson := by
  have houter : ("type" : String) ≤ "variants" := by decide
  have hinner : ("openai_lark" : String) ≤ "openai_regex" := by decide
  cases openaiLark <;> cases openaiRegex <;>
    simp [SamplingPreference.asJson, Value.entry, Json.sortKeys, Json.sortKeysItems, Json.byKey, houter, hinner]

theorem SamplingPreference.isJson_asJson (preference : SamplingPreference) : preference.asJson.IsJson := by
  match preference with
  | .absent => exact trivial
  | .disabled => exact trivial
  | .chosen (.jsonSchema strict) => exact ⟨by simp, trivial, trivial, trivial⟩
  | .chosen (.grammar none none) => exact ⟨by simp, trivial, ⟨by simp [Value.entry], trivial⟩, trivial⟩
  | .chosen (.grammar none (some _)) => exact ⟨by simp, trivial, ⟨by simp [Value.entry], trivial, trivial⟩, trivial⟩
  | .chosen (.grammar (some _) none) => exact ⟨by simp, trivial, ⟨by simp [Value.entry], trivial, trivial⟩, trivial⟩
  | .chosen (.grammar (some _) (some _)) =>
    exact ⟨by simp, trivial, ⟨by simp [Value.entry], trivial, trivial, trivial⟩, trivial⟩

/-- A preference is read back. -/
theorem SamplingPreference.ofJson?_asJson (preference : SamplingPreference) :
    ofJson? (some (Json.sortKeys (canonical preference.asJson))) = some preference := by
  rw [sortKeys_canonical preference.isJson_asJson]
  match preference with
  | .absent => rfl
  | .disabled => rfl
  | .chosen (.jsonSchema .prefer) => rfl
  | .chosen (.jsonSchema .require) => rfl
  | .chosen (.grammar openaiLark openaiRegex) =>
    rw [sortKeys_grammar]
    cases openaiLark <;> cases openaiRegex <;> rfl

namespace ToolSchema

/-- The items of a schema's stored form. -/
def jsonItems (schema : ToolSchema) : List (String × Value) :=
  [("name", .str schema.name), ("description", .str schema.description),
    ("parameters", canonical (.dict schema.parameters)),
    ("constrained_sampling", canonical schema.constrainedSampling.asJson)]

theorem nodup_jsonItems (schema : ToolSchema) : (schema.jsonItems.map Prod.fst).Nodup := by
  have hkeys : ["name", "description", "parameters", "constrained_sampling"].Nodup := by decide
  exact hkeys

/-- The stored form of a schema with JSON parameters is JSON. -/
theorem isJson_asJson {schema : ToolSchema} (h : (Value.dict schema.parameters).IsJson) : schema.asJson.IsJson := by
  have hparameters : (canonical (.dict schema.parameters)).IsJson := by
    rw [canonical_eq_sortKeys _ h]
    exact Json.isJson_sortKeys _ h
  have hsampling : (canonical schema.constrainedSampling.asJson).IsJson := by
    rw [canonical_eq_sortKeys _ schema.constrainedSampling.isJson_asJson]
    exact Json.isJson_sortKeys _ schema.constrainedSampling.isJson_asJson
  exact ⟨schema.nodup_jsonItems, trivial, trivial, hparameters, hsampling, trivial⟩

/-- A stored schema is read back, its parameters with sorted keys. -/
theorem ofJson?_asJson {schema : ToolSchema} (h : (Value.dict schema.parameters).IsJson) :
    ∃ read, ofJson? (Json.sortKeys schema.asJson) = some read ∧ read.Same schema := by
  have hget : ∀ key, (Json.sortKeys schema.asJson).get? key = (schema.jsonItems.lookup key).map Json.sortKeys :=
    fun key => Json.get?_sortKeys schema.nodup_jsonItems key
  have hparameters : (Json.sortKeys (canonical (.dict schema.parameters))).items? =
      some ((Json.sortKeysItems schema.parameters).insertionSort Json.byKey) := by
    rw [sortKeys_canonical h]
    rfl
  refine ⟨{ schema with parameters := (Json.sortKeysItems schema.parameters).insertionSort Json.byKey }, ?_, ?_⟩
  · simp only [ofJson?, hget]
    simp [jsonItems, List.lookup_cons, Json.sortKeys, SamplingPreference.ofJson?_asJson, hparameters]
  · exact ⟨rfl, rfl, Json.sortKeys_idem (.dict schema.parameters), rfl⟩

end ToolSchema

/-! ## Requests -/

/-- One logical request to a model.  `signal` is the run's cancellation flag. -/
structure Request where
  model : ModelId
  system : String
  messages : List Message
  maxOutputTokens : Option Int := none
  tools : List ToolSchema := []
  signal : Option Bool := none
deriving DecidableEq

/-! ## Streams -/

/-- The chunks between the start of a stream and its terminal. -/
inductive AssistantMessageEvent
  | textStart (contentIndex : Int) (message : AssistantMessage)
  | textDelta (contentIndex : Int) (delta : String) (message : AssistantMessage)
  | textEnd (contentIndex : Int) (text : String) (message : AssistantMessage)
  | thinkingStart (contentIndex : Int) (message : AssistantMessage)
  | thinkingDelta (contentIndex : Int) (delta : String) (message : AssistantMessage)
  | thinkingEnd (contentIndex : Int) (thinking : String) (message : AssistantMessage)
  | toolCallStart (contentIndex : Int) (message : AssistantMessage)
  | toolCallDelta (contentIndex : Int) (delta : String) (message : AssistantMessage)
  | toolCallEnd (contentIndex : Int) (toolCall : ToolCallBlock) (message : AssistantMessage)
deriving DecidableEq

namespace AssistantMessageEvent

/-- The chunk's `partial`: the message as assembled so far. -/
def message : AssistantMessageEvent → AssistantMessage
  | textStart _ m | textDelta _ _ m | textEnd _ _ m | thinkingStart _ m | thinkingDelta _ _ m | thinkingEnd _ _ m
  | toolCallStart _ m | toolCallDelta _ _ m | toolCallEnd _ _ m => m

def contentIndex : AssistantMessageEvent → Int
  | textStart i _ | textDelta i _ _ | textEnd i _ _ | thinkingStart i _ | thinkingDelta i _ _ | thinkingEnd i _ _
  | toolCallStart i _ | toolCallDelta i _ _ | toolCallEnd i _ _ => i

/-- The name a chunk is logged under. -/
def kind : AssistantMessageEvent → String
  | textStart _ _ => "text_start"
  | textDelta _ _ _ => "text_delta"
  | textEnd _ _ _ => "text_end"
  | thinkingStart _ _ => "thinking_start"
  | thinkingDelta _ _ _ => "thinking_delta"
  | thinkingEnd _ _ _ => "thinking_end"
  | toolCallStart _ _ => "toolcall_start"
  | toolCallDelta _ _ _ => "toolcall_delta"
  | toolCallEnd _ _ _ => "toolcall_end"

/-- The increment of a delta chunk. -/
def delta? : AssistantMessageEvent → Option String
  | textDelta _ d _ | thinkingDelta _ d _ | toolCallDelta _ d _ => some d
  | _ => none

end AssistantMessageEvent

/-- A chunk of a reply's stream; each carries the message so far. -/
inductive StreamChunk
  | start (message : AssistantMessage)
  | update (event : AssistantMessageEvent)
  | done (message : AssistantMessage) (soFar : AssistantMessage)
  | error (reason : StopReason) (message : AssistantMessage) (soFar : AssistantMessage)
deriving DecidableEq

/-- The chunk's `partial`. -/
def StreamChunk.soFar : StreamChunk → AssistantMessage
  | .start message => message
  | .update event => event.message
  | .done _ message | .error _ _ message => message

/-- The message of a terminal chunk. -/
def StreamChunk.terminal? : StreamChunk → Option AssistantMessage
  | .done message _ | .error _ message _ => some message
  | _ => none

/-- How an adapter's stream stops: it ends, raises an exception of some type,
or is torn down. -/
inductive SourceEnding
  | ended
  | raised (typeName message : String)
  | cancelled
deriving DecidableEq

/-- `_empty_partial`: a pending message for a stream that produced nothing. -/
def emptyPartial (request : Request) : AssistantMessage where
  content := []
  stopReason := .pending
  usage := {}
  model := request.model.model
  provider := request.model.provider
  timestamp := 0
  api := request.model.api

/-- `_error_terminal`. -/
def errorTerminal (request : Request) (soFar : Option AssistantMessage) (message : String) : StreamChunk :=
  let settled := { soFar.getD (emptyPartial request) with stopReason := .error, errorMessage := some message }
  .error .error settled settled

/-- `_settled`, of a source whose chunks come with what happens before each,
`last` before its ending.  Without a terminal it settles as an error, unless
it is torn down. -/
def settledFrom {α : Type} (request : Request) (ending : SourceEnding) (last : α) :
    Option AssistantMessage → List (α × StreamChunk) → List (α × StreamChunk)
  | soFar, [] =>
    match ending with
    | .ended =>
      [(last, errorTerminal request soFar "provider stream ended without a terminal chunk; the response is incomplete")]
    | .raised typeName message =>
      [(last, errorTerminal request soFar ("provider stream raised " ++ typeName ++ ": " ++ message))]
    | .cancelled => []
  | _, (before, chunk) :: chunks =>
    if chunk.terminal?.isSome then
      [(before, chunk)]
    else
      (before, chunk) :: settledFrom request ending last (some chunk.soFar) chunks

def settled {α : Type} (request : Request) (ending : SourceEnding) (last : α) (chunks : List (α × StreamChunk)) :
    List (α × StreamChunk) :=
  settledFrom request ending last none chunks

end MinionAgent
