import MinionAgent.Library.JsonGrammar
import MinionAgent.Library.Replace

/-!
# MinionAgent.Telemetry.Spans

The spans telemetry describes operations with (`telemetry/spans.py`).

* `Ink` — what a text is made of: the code points of a `str`, or code points
  that remember whether redaction put them in (`Traced`);
* `Value` — the values of attributes, nested to any depth;
* `Span` — one completed operation.

`Value.keyTexts` and `Value.valueTexts` are the strings at the two kinds of
position: in the keys of dicts, and everywhere else.
-/

namespace MinionAgent.Telemetry

/-! ## Texts -/

/-- A code point of a Python `str`, surrogates included. -/
abbrev CodePoint := Fin 0x110000

/-- The code points of a literal. -/
def codePoints (literal : String) : List CodePoint := literal.toList.map fun c => Fin.ofNat _ c.toNat

/-- The characters a text can be made of: each has a code point, and each code
point can be put into a text. -/
class Ink (α : Type) where
  code : α → CodePoint
  print : CodePoint → α
  code_print : ∀ c, code (print c) = c

instance : Ink CodePoint := ⟨id, id, fun _ => rfl⟩

/-- A character that remembers whether redaction put it in. -/
structure Traced where
  char : CodePoint
  inserted : Bool
deriving DecidableEq

instance : Ink Traced := ⟨Traced.char, fun c => ⟨c, true⟩, fun _ => rfl⟩

/-- A character of a text that was not redacted. -/
def Traced.original (c : CodePoint) : Traced := ⟨c, false⟩

/-- Redaction put the character in. -/
def Traced.Inserted (c : Traced) : Prop := c.inserted = true

@[simp] theorem char_original (c : CodePoint) : (Traced.original c).char = c := rfl

/-! ## Values -/

/-- An attribute value: what `isinstance` tells apart when it is scrubbed.  A
value that is none of the four is known by its identity. -/
inductive Value (α : Type)
  | str (text : List α)
  | dict (items : List (Value α × Value α))
  | list (items : List (Value α))
  | tuple (items : List (Value α))
  | other (id : Nat)

namespace Value

variable {α β : Type}

mutual

/-- The value with its characters replaced one for one. -/
def map (f : α → β) : Value α → Value β
  | str text => str (text.map f)
  | dict items => dict (mapItems f items)
  | list items => list (mapList f items)
  | tuple items => tuple (mapList f items)
  | other id => other id

def mapList (f : α → β) : List (Value α) → List (Value β)
  | [] => []
  | item :: items => map f item :: mapList f items

def mapItems (f : α → β) : List (Value α × Value α) → List (Value β × Value β)
  | [] => []
  | (key, item) :: items => (map f key, map f item) :: mapItems f items

end

mutual

/-- Every string of a value. -/
def texts : Value α → List (List α)
  | str text => [text]
  | dict items => textsOfItems items
  | list items => textsOfList items
  | tuple items => textsOfList items
  | other _ => []

def textsOfList : List (Value α) → List (List α)
  | [] => []
  | item :: items => texts item ++ textsOfList items

def textsOfItems : List (Value α × Value α) → List (List α)
  | [] => []
  | (key, item) :: items => texts key ++ texts item ++ textsOfItems items

end

mutual

/-- The strings in the keys of dicts. -/
def keyTexts : Value α → List (List α)
  | str _ => []
  | dict items => keyTextsOfItems items
  | list items => keyTextsOfList items
  | tuple items => keyTextsOfList items
  | other _ => []

def keyTextsOfList : List (Value α) → List (List α)
  | [] => []
  | item :: items => keyTexts item ++ keyTextsOfList items

def keyTextsOfItems : List (Value α × Value α) → List (List α)
  | [] => []
  | (key, item) :: items => texts key ++ keyTexts item ++ keyTextsOfItems items

end

mutual

/-- The strings outside the keys of dicts. -/
def valueTexts : Value α → List (List α)
  | str text => [text]
  | dict items => valueTextsOfItems items
  | list items => valueTextsOfList items
  | tuple items => valueTextsOfList items
  | other _ => []

def valueTextsOfList : List (Value α) → List (List α)
  | [] => []
  | item :: items => valueTexts item ++ valueTextsOfList items

def valueTextsOfItems : List (Value α × Value α) → List (List α)
  | [] => []
  | (_, item) :: items => valueTexts item ++ valueTextsOfItems items

end

mutual

/-- A string of a value is in a key or outside the keys. -/
theorem mem_texts (text : List α) : ∀ value : Value α,
    text ∈ texts value ↔ text ∈ keyTexts value ∨ text ∈ valueTexts value
  | str _ => by simp [texts, keyTexts, valueTexts]
  | dict items => by simpa [texts, keyTexts, valueTexts] using mem_textsOfItems text items
  | list items => by simpa [texts, keyTexts, valueTexts] using mem_textsOfList text items
  | tuple items => by simpa [texts, keyTexts, valueTexts] using mem_textsOfList text items
  | other _ => by simp [texts, keyTexts, valueTexts]

theorem mem_textsOfList (text : List α) : ∀ items : List (Value α),
    text ∈ textsOfList items ↔ text ∈ keyTextsOfList items ∨ text ∈ valueTextsOfList items
  | [] => by simp [textsOfList, keyTextsOfList, valueTextsOfList]
  | item :: items => by
    have hitem := mem_texts text item
    have hitems := mem_textsOfList text items
    simp only [textsOfList, keyTextsOfList, valueTextsOfList, List.mem_append, hitem, hitems]
    tauto

theorem mem_textsOfItems (text : List α) : ∀ items : List (Value α × Value α),
    text ∈ textsOfItems items ↔ text ∈ keyTextsOfItems items ∨ text ∈ valueTextsOfItems items
  | [] => by simp [textsOfItems, keyTextsOfItems, valueTextsOfItems]
  | (key, item) :: items => by
    have hitem := mem_texts text item
    have hitems := mem_textsOfItems text items
    simp only [textsOfItems, keyTextsOfItems, valueTextsOfItems, List.mem_append, hitem, hitems]
    tauto

end

mutual

/-- Maps of characters compose. -/
theorem map_map {γ : Type} (f : α → β) (g : β → γ) : ∀ value : Value α, map g (map f value) = map (g ∘ f) value
  | str text => by simp [map]
  | dict items => by simp [map, mapItems_mapItems f g items]
  | list items => by simp [map, mapList_mapList f g items]
  | tuple items => by simp [map, mapList_mapList f g items]
  | other _ => rfl

theorem mapList_mapList {γ : Type} (f : α → β) (g : β → γ) : ∀ items : List (Value α),
    mapList g (mapList f items) = mapList (g ∘ f) items
  | [] => rfl
  | item :: items => by simp [mapList, map_map f g item, mapList_mapList f g items]

theorem mapItems_mapItems {γ : Type} (f : α → β) (g : β → γ) : ∀ items : List (Value α × Value α),
    mapItems g (mapItems f items) = mapItems (g ∘ f) items
  | [] => rfl
  | (key, item) :: items => by
    simp [mapItems, map_map f g key, map_map f g item, mapItems_mapItems f g items]

end

mutual

/-- A map that changes no character changes no value. -/
theorem map_id : ∀ value : Value α, map id value = value
  | str text => by simp [map]
  | dict items => by simp [map, mapItems_id items]
  | list items => by simp [map, mapList_id items]
  | tuple items => by simp [map, mapList_id items]
  | other _ => rfl

theorem mapList_id : ∀ items : List (Value α), mapList id items = items
  | [] => rfl
  | item :: items => by simp [mapList, map_id item, mapList_id items]

theorem mapItems_id : ∀ items : List (Value α × Value α), mapItems id items = items
  | [] => rfl
  | (key, item) :: items => by simp [mapItems, map_id key, map_id item, mapItems_id items]

end

mutual

/-- The strings of a mapped value. -/
theorem texts_map (f : α → β) : ∀ value : Value α, (map f value).texts = value.texts.map (List.map f)
  | str _ => rfl
  | dict items => textsOfItems_map f items
  | list items => textsOfList_map f items
  | tuple items => textsOfList_map f items
  | other _ => rfl

theorem textsOfList_map (f : α → β) : ∀ items : List (Value α),
    textsOfList (mapList f items) = (textsOfList items).map (List.map f)
  | [] => rfl
  | item :: items => by simp [mapList, textsOfList, texts_map f item, textsOfList_map f items]

theorem textsOfItems_map (f : α → β) : ∀ items : List (Value α × Value α),
    textsOfItems (mapItems f items) = (textsOfItems items).map (List.map f)
  | [] => rfl
  | (key, item) :: items => by
    simp [mapItems, textsOfItems, texts_map f key, texts_map f item, textsOfItems_map f items]

end

mutual

/-- The strings in the keys of a mapped value. -/
theorem keyTexts_map (f : α → β) : ∀ value : Value α, (map f value).keyTexts = value.keyTexts.map (List.map f)
  | str _ => rfl
  | dict items => keyTextsOfItems_map f items
  | list items => keyTextsOfList_map f items
  | tuple items => keyTextsOfList_map f items
  | other _ => rfl

theorem keyTextsOfList_map (f : α → β) : ∀ items : List (Value α),
    keyTextsOfList (mapList f items) = (keyTextsOfList items).map (List.map f)
  | [] => rfl
  | item :: items => by simp [mapList, keyTextsOfList, keyTexts_map f item, keyTextsOfList_map f items]

theorem keyTextsOfItems_map (f : α → β) : ∀ items : List (Value α × Value α),
    keyTextsOfItems (mapItems f items) = (keyTextsOfItems items).map (List.map f)
  | [] => rfl
  | (key, item) :: items => by
    simp [mapItems, keyTextsOfItems, texts_map f key, keyTexts_map f item, keyTextsOfItems_map f items]

end

end Value

/-! ## Spans -/

/-- The operations telemetry describes. -/
inductive SpanKind
  | turn | step | providerRequest | toolExecution
deriving DecidableEq

/-- One completed operation. -/
structure Span (α : Type) where
  kind : SpanKind
  name : List α
  attributes : List (Value α × Value α)
  durationMs : Option Int
  error : Option (List α)

namespace Span

variable {α β : Type}

/-- The span with its characters replaced one for one. -/
def map (f : α → β) (span : Span α) : Span β where
  kind := span.kind
  name := span.name.map f
  attributes := Value.mapItems f span.attributes
  durationMs := span.durationMs
  error := span.error.map (List.map f)

/-- The name of a span and the strings in its keys. -/
def labels (span : Span α) : List (List α) := span.name :: Value.keyTextsOfItems span.attributes

/-- The error of a span and the strings of its attributes outside the keys. -/
def contents (span : Span α) : List (List α) := span.error.toList ++ Value.valueTextsOfItems span.attributes

/-- Every string of a span. -/
def texts (span : Span α) : List (List α) :=
  span.name :: (span.error.toList ++ Value.textsOfItems span.attributes)

/-- The labels of a mapped span. -/
theorem labels_map (f : α → β) (span : Span α) : (span.map f).labels = span.labels.map (List.map f) := by
  simp [labels, map, Value.keyTextsOfItems_map]

theorem mem_texts (text : List α) (span : Span α) : text ∈ span.texts ↔ text ∈ span.labels ∨ text ∈ span.contents := by
  have hitems := Value.mem_textsOfItems text span.attributes
  simp only [texts, labels, contents, List.mem_cons, List.mem_append, hitems]
  tauto

end Span

end MinionAgent.Telemetry
