import MinionAgent.Telemetry.Spans
import Mathlib.Data.Finset.Basic

/-!
# MinionAgent.Telemetry.Sanitize

The redaction boundary (`telemetry/sanitize.py`) and the service that delivers
the scrubbed span to every sink (`telemetry/service.py`).

* `scrubText` — the declared secrets replaced one after another, in the order
  the set is iterated in;
* `TelemetryService.emit` — what each sink receives;
* `labels_scrub`, `contents_scrub` — which strings of a span are scrubbed;
* `covered_scrubText` — every occurrence of a secret in a scrubbed text holds a
  character that redaction put in.

The code is written for any `Ink`: at code points it is the source's, and at
traced characters it says where each character of a delivered text comes from
(`emit_char`).
-/

namespace MinionAgent.Telemetry

open Replace

variable {α : Type} [Ink α]

/-! ## The sanitizer -/

/-- The text that takes the place of a secret. -/
def REDACTED : List CodePoint := codePoints "[redacted]"

/-- The same text, put into a text of any characters. -/
def redaction (α : Type) [Ink α] : List α := REDACTED.map Ink.print

/-- The declared secrets; the empty text is none. -/
structure Sanitizer where
  secrets : Finset (List CodePoint)
  nonempty : [] ∉ secrets

namespace Sanitizer

def init : Sanitizer := ⟨∅, Finset.notMem_empty _⟩

/-- Declare a value to be masked. -/
def addSecret (self : Sanitizer) (value : List CodePoint) : Sanitizer :=
  if h : value = [] then self
  else ⟨insert value self.secrets, by
    simp only [Finset.mem_insert, not_or]
    exact ⟨fun hnil => h hnil.symm, self.nonempty⟩⟩

/-- An order in which the set of secrets can be iterated. -/
structure Order (sanitizer : Sanitizer) where
  list : List (List CodePoint)
  nodup : list.Nodup
  mem_iff : ∀ secret, secret ∈ list ↔ secret ∈ sanitizer.secrets

/-- One secret masked in a text. -/
def maskSecret (text : List α) (secret : List CodePoint) : List α :=
  replace Ink.code secret (redaction α) text

def scrubText (order : List (List CodePoint)) (text : List α) : List α := order.foldl maskSecret text

mutual

def scrubValue (order : List (List CodePoint)) : Value α → Value α
  | .str text => .str (scrubText order text)
  | .dict items => .dict (scrubItems order items)
  | .list items => .list (scrubList order items)
  | .tuple items => .tuple (scrubList order items)
  | .other id => .other id

def scrubList (order : List (List CodePoint)) : List (Value α) → List (Value α)
  | [] => []
  | item :: items => scrubValue order item :: scrubList order items

def scrubItems (order : List (List CodePoint)) : List (Value α × Value α) → List (Value α × Value α)
  | [] => []
  | (key, item) :: items => (key, scrubValue order item) :: scrubItems order items

end

/-- The span with the secrets masked in its attributes and its error. -/
def scrub (self : Sanitizer) (order : self.Order) (span : Span α) : Span α :=
  if self.secrets = ∅ then span
  else
    { span with
      attributes := scrubItems order.list span.attributes
      error := span.error.map (scrubText order.list) }

end Sanitizer

/-! ## The service -/

/-- The sanitizer and the registered sinks. -/
structure TelemetryService (σ : Type) where
  sanitizer : Sanitizer
  sinks : List σ

/-- Scrub the span, then deliver it to every sink.  A sink that raises is
contained, so what it does decides nothing here. -/
def TelemetryService.emit {σ : Type} (self : TelemetryService σ) (order : self.sanitizer.Order) (span : Span α) :
    List (σ × Span α) :=
  let scrubbed := self.sanitizer.scrub order span
  self.sinks.map fun sink => (sink, scrubbed)

namespace Sanitizer

/-! ## Which strings are scrubbed -/

mutual

/-- The keys of dicts stay. -/
theorem keyTexts_scrubValue (order : List (List CodePoint)) : ∀ value : Value α,
    (scrubValue order value).keyTexts = value.keyTexts
  | .str _ => rfl
  | .dict items => keyTexts_scrubItems order items
  | .list items => keyTexts_scrubList order items
  | .tuple items => keyTexts_scrubList order items
  | .other _ => rfl

theorem keyTexts_scrubList (order : List (List CodePoint)) : ∀ items : List (Value α),
    Value.keyTextsOfList (scrubList order items) = Value.keyTextsOfList items
  | [] => rfl
  | item :: items => by
    simp only [scrubList, Value.keyTextsOfList, keyTexts_scrubValue order item, keyTexts_scrubList order items]

theorem keyTexts_scrubItems (order : List (List CodePoint)) : ∀ items : List (Value α × Value α),
    Value.keyTextsOfItems (scrubItems order items) = Value.keyTextsOfItems items
  | [] => rfl
  | (key, item) :: items => by
    simp only [scrubItems, Value.keyTextsOfItems, keyTexts_scrubValue order item, keyTexts_scrubItems order items]

end

mutual

/-- Every other string is scrubbed. -/
theorem valueTexts_scrubValue (order : List (List CodePoint)) : ∀ value : Value α,
    (scrubValue order value).valueTexts = value.valueTexts.map (scrubText order)
  | .str _ => rfl
  | .dict items => valueTexts_scrubItems order items
  | .list items => valueTexts_scrubList order items
  | .tuple items => valueTexts_scrubList order items
  | .other _ => rfl

theorem valueTexts_scrubList (order : List (List CodePoint)) : ∀ items : List (Value α),
    Value.valueTextsOfList (scrubList order items) = (Value.valueTextsOfList items).map (scrubText order)
  | [] => rfl
  | item :: items => by
    simp only [scrubList, Value.valueTextsOfList, valueTexts_scrubValue order item,
      valueTexts_scrubList order items, List.map_append]

theorem valueTexts_scrubItems (order : List (List CodePoint)) : ∀ items : List (Value α × Value α),
    Value.valueTextsOfItems (scrubItems order items) = (Value.valueTextsOfItems items).map (scrubText order)
  | [] => rfl
  | (key, item) :: items => by
    simp only [scrubItems, Value.valueTextsOfItems, valueTexts_scrubValue order item,
      valueTexts_scrubItems order items, List.map_append]

end

mutual

/-- Orders that scrub the strings of a value alike scrub the value alike. -/
theorem scrubValue_congr {order order' : List (List CodePoint)} : ∀ value : Value α,
    (∀ text ∈ value.valueTexts, scrubText order text = scrubText order' text) →
      scrubValue order value = scrubValue order' value
  | .str text, h => by rw [scrubValue, scrubValue, h text (by simp [Value.valueTexts])]
  | .dict items, h => by rw [scrubValue, scrubValue, scrubItems_congr items h]
  | .list items, h => by rw [scrubValue, scrubValue, scrubList_congr items h]
  | .tuple items, h => by rw [scrubValue, scrubValue, scrubList_congr items h]
  | .other _, _ => rfl

theorem scrubList_congr {order order' : List (List CodePoint)} : ∀ items : List (Value α),
    (∀ text ∈ Value.valueTextsOfList items, scrubText order text = scrubText order' text) →
      scrubList order items = scrubList order' items
  | [], _ => rfl
  | item :: items, h => by
    have hitem := scrubValue_congr item fun text ht => h text (List.mem_append_left _ ht)
    have hitems := scrubList_congr items fun text ht => h text (List.mem_append_right _ ht)
    rw [scrubList, scrubList, hitem, hitems]

theorem scrubItems_congr {order order' : List (List CodePoint)} : ∀ items : List (Value α × Value α),
    (∀ text ∈ Value.valueTextsOfItems items, scrubText order text = scrubText order' text) →
      scrubItems order items = scrubItems order' items
  | [], _ => rfl
  | (key, item) :: items, h => by
    have hitem := scrubValue_congr item fun text ht => h text (List.mem_append_left _ ht)
    have hitems := scrubItems_congr items fun text ht => h text (List.mem_append_right _ ht)
    rw [scrubItems, scrubItems, hitem, hitems]

end

/-- The labels of a span stay. -/
theorem labels_scrub (self : Sanitizer) (order : self.Order) (span : Span α) :
    (self.scrub order span).labels = span.labels := by
  unfold scrub
  split
  · rfl
  · simp [Span.labels, keyTexts_scrubItems]

/-- The contents of a span are scrubbed. -/
theorem contents_scrub (self : Sanitizer) (order : self.Order) (span : Span α) :
    (self.scrub order span).contents = span.contents.map (scrubText order.list) := by
  unfold scrub
  split
  · next hempty =>
    have hnone : order.list = [] := by
      apply List.eq_nil_iff_forall_not_mem.mpr
      intro secret hmem
      simpa [hempty] using (order.mem_iff secret).mp hmem
    have hid : scrubText (α := α) [] = id := rfl
    rw [hnone, hid, List.map_id]
  · cases herror : span.error <;> simp [Span.contents, herror, valueTexts_scrubItems]

/-! ## Where the characters come from -/

/-- A text before redaction. -/
def originals (text : List CodePoint) : List Traced := text.map Traced.original

theorem map_char_originals (text : List CodePoint) : (originals text).map Traced.char = text := by
  simp [originals, Function.comp_def]

theorem scrubText_char (order : List (List CodePoint)) (text : List Traced) :
    (scrubText order text).map Traced.char = scrubText order (text.map Traced.char) := by
  induction order generalizing text with
  | nil => rfl
  | cons secret order ih =>
    have hmask : (maskSecret text secret).map Traced.char = maskSecret (text.map Traced.char) secret := by
      have hmap := replace_map Traced.char (id : CodePoint → CodePoint) secret (redaction Traced) text
      simpa [maskSecret, redaction, Function.comp_def, Ink.print, Ink.code] using hmap
    calc
      (scrubText (secret :: order) text).map Traced.char = scrubText order ((maskSecret text secret).map Traced.char) :=
        ih (maskSecret text secret)
      _ = scrubText (secret :: order) (text.map Traced.char) := by rw [hmask]; rfl

mutual

theorem map_char_scrubValue (order : List (List CodePoint)) : ∀ value : Value Traced,
    (scrubValue order value).map Traced.char = scrubValue order (value.map Traced.char)
  | .str text => by simp only [scrubValue, Value.map, scrubText_char]
  | .dict items => by simp only [scrubValue, Value.map, map_char_scrubItems order items]
  | .list items => by simp only [scrubValue, Value.map, map_char_scrubList order items]
  | .tuple items => by simp only [scrubValue, Value.map, map_char_scrubList order items]
  | .other _ => rfl

theorem map_char_scrubList (order : List (List CodePoint)) : ∀ items : List (Value Traced),
    Value.mapList Traced.char (scrubList order items) = scrubList order (Value.mapList Traced.char items)
  | [] => rfl
  | item :: items => by
    simp only [scrubList, Value.mapList, map_char_scrubValue order item, map_char_scrubList order items]

theorem map_char_scrubItems (order : List (List CodePoint)) : ∀ items : List (Value Traced × Value Traced),
    Value.mapItems Traced.char (scrubItems order items) = scrubItems order (Value.mapItems Traced.char items)
  | [] => rfl
  | (key, item) :: items => by
    simp only [scrubItems, Value.mapItems, map_char_scrubValue order item, map_char_scrubItems order items]

end

/-- The characters of a scrubbed span are those of the scrubbed characters. -/
theorem map_char_scrub (self : Sanitizer) (order : self.Order) (span : Span Traced) :
    (self.scrub order span).map Traced.char = self.scrub order (span.map Traced.char) := by
  unfold scrub
  split
  · rfl
  · cases herror : span.error <;> simp [Span.map, herror, map_char_scrubItems, scrubText_char]

/-! ## Masked -/

theorem redaction_ne_nil : redaction α ≠ [] := by
  have hlen : (redaction α).length = 10 := by
    rw [redaction, List.length_map]
    decide
  intro hnil
  simp [hnil] at hlen

theorem inserted_of_mem_redaction : ∀ c ∈ redaction Traced, c.Inserted := by
  intro c hc
  obtain ⟨_, -, rfl⟩ := List.mem_map.mp hc
  rfl

/-- Every occurrence of a secret in a scrubbed text holds a character that redaction put in. -/
theorem covered_scrubText (self : Sanitizer) (order : self.Order) (text : List Traced) {secret : List CodePoint}
    (hsecret : secret ∈ self.secrets) : Covered Ink.code Traced.Inserted secret (scrubText order.list text) :=
  covered_foldl_replace redaction_ne_nil inserted_of_mem_redaction order.list
    (fun hnil => self.nonempty ((order.mem_iff []).mp hnil)) text secret ((order.mem_iff secret).mpr hsecret)

/-- In a text that redaction did not touch, that says that the secret does not occur. -/
theorem covered_originals_iff (secret text : List CodePoint) :
    Covered Ink.code Traced.Inserted secret (originals text) ↔ ¬ secret <:+: text := by
  constructor
  · rintro h ⟨front, back, rfl⟩
    have hin : originals secret <:+: originals (front ++ secret ++ back) :=
      ⟨originals front, originals back, by simp [originals]⟩
    obtain ⟨c, hc, hinserted⟩ := h (originals secret) hin (map_char_originals secret)
    obtain ⟨d, -, rfl⟩ := List.mem_map.mp hc
    cases hinserted
  · intro h w hin hw
    refine absurd ?_ h
    have hmap := hin.map Traced.char
    rw [map_char_originals] at hmap
    exact hw ▸ hmap

end Sanitizer

namespace TelemetryService

variable {σ : Type}

/-- The span before redaction. -/
def traced (span : Span CodePoint) : Span Traced := span.map Traced.original

/-- What the sinks receive, as the source has it, is what they receive with the
origin of each character left out. -/
theorem emit_char (self : TelemetryService σ) (order : self.sanitizer.Order) (span : Span CodePoint) :
    (self.emit order (traced span)).map (fun delivery => (delivery.1, delivery.2.map Traced.char)) =
      self.emit order span := by
  have hspan : (traced span).map Traced.char = span := by
    cases span with
    | mk kind name attributes durationMs error =>
      cases error <;>
        simp [traced, Span.map, Value.mapItems_mapItems, Function.comp_def, ← Function.id_def, Value.mapItems_id]
  simp [emit, Sanitizer.map_char_scrub, hspan]

end TelemetryService

end MinionAgent.Telemetry
