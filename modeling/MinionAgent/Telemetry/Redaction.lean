import MinionAgent.Telemetry.Sanitize

/-!
# MinionAgent.Telemetry.Redaction

How far redaction is complete and independent of the order in which the set of
secrets is iterated.

* `masked_iff` — no secret reaches a sink unless one stands in the name of the
  span or in a key, which are not scrubbed;
* `sameInEveryOrder` — what the sinks receive is the same in every order when,
  in each scrubbed text, no two secrets take out the same character and none
  takes out a character that was put in for others.
-/

namespace MinionAgent.Telemetry

open Replace Sanitizer

namespace TelemetryService

variable {σ : Type} (self : TelemetryService σ) (span : Span CodePoint)

/-- In every string that a sink receives, every occurrence of a declared secret
holds a character that redaction put in. -/
def Masked : Prop :=
  ∀ order, ∀ delivery ∈ self.emit order (traced span), ∀ text ∈ delivery.2.texts,
    ∀ secret ∈ self.sanitizer.secrets, Covered Ink.code Traced.Inserted secret text

/-- The sinks receive the same whatever order the secrets are iterated in. -/
def SameInEveryOrder : Prop := ∀ order order', self.emit order span = self.emit order' span

/-- No secret stands in the name of the span or in a key. -/
def LabelsClear : Prop :=
  ∀ secret ∈ self.sanitizer.secrets, ∀ label ∈ span.labels, ¬ secret <:+: label

/-- In each text that is scrubbed, the secrets can be masked in any order.  A
secret that is the redaction text is masked by itself and counts for nothing. -/
def ContentsIndependent : Prop :=
  ∀ text ∈ span.contents,
    Independent Ink.code Traced.Inserted {secret | secret ∈ self.sanitizer.secrets ∧ secret ≠ REDACTED}
      (redaction Traced) (originals text)

/-! ## Completeness -/

/-- There is an order to iterate the secrets in. -/
theorem exists_order (sanitizer : Sanitizer) : Nonempty sanitizer.Order :=
  ⟨⟨sanitizer.secrets.toList, sanitizer.secrets.nodup_toList, fun _ => Finset.mem_toList⟩⟩

theorem masked_iff : self.Masked span ↔ self.sinks = [] ∨ self.LabelsClear span := by
  constructor
  · intro h
    cases hsinks : self.sinks with
    | nil => exact Or.inl rfl
    | cons sink sinks =>
      refine Or.inr fun secret hsecret label hlabel => ?_
      obtain ⟨order⟩ := exists_order self.sanitizer
      have hdelivery : (sink, self.sanitizer.scrub order (traced span)) ∈ self.emit order (traced span) := by
        simp [emit, hsinks]
      have hin : originals label ∈ (self.sanitizer.scrub order (traced span)).texts := by
        rw [Span.mem_texts, labels_scrub, traced, Span.labels_map]
        exact Or.inl (List.mem_map_of_mem hlabel)
      exact (covered_originals_iff secret label).mp (h order _ hdelivery _ hin secret hsecret)
  · rintro (hsinks | hclear)
    · intro order delivery hdelivery
      simp [emit, hsinks] at hdelivery
    · intro order delivery hdelivery text htext secret hsecret
      obtain ⟨sink, -, rfl⟩ := List.mem_map.mp hdelivery
      rw [Span.mem_texts, labels_scrub, contents_scrub, traced, Span.labels_map] at htext
      rcases htext with hlabel | hcontent
      · obtain ⟨label, hin, rfl⟩ := List.mem_map.mp hlabel
        exact (covered_originals_iff secret label).mpr (hclear secret hsecret label hin)
      · obtain ⟨content, -, rfl⟩ := List.mem_map.mp hcontent
        exact covered_scrubText self.sanitizer order content hsecret

/-! ## Independence of the order -/

theorem redaction_codePoint : redaction CodePoint = REDACTED := by
  have hprint : (Ink.print : CodePoint → CodePoint) = id := rfl
  rw [redaction, hprint, List.map_id]

/-- A secret that is the redaction text changes nothing. -/
theorem maskSecret_redacted (text : List CodePoint) : maskSecret text REDACTED = text := by
  have hne : REDACTED ≠ [] := redaction_codePoint ▸ redaction_ne_nil
  have hself := replaceFrom_self hne text 0
  rw [List.drop_zero] at hself
  rw [maskSecret, redaction_codePoint]
  exact hself

theorem scrubText_filter (order : List (List CodePoint)) (text : List CodePoint) :
    scrubText (order.filter (· ≠ REDACTED)) text = scrubText order text := by
  induction order generalizing text with
  | nil => rfl
  | cons secret order ih =>
    by_cases h : secret = REDACTED
    · subst h
      have hstep : scrubText (REDACTED :: order) text = scrubText order (maskSecret text REDACTED) := rfl
      rw [hstep, maskSecret_redacted, ← ih]
      simp
    · have hstep : scrubText (secret :: order) text = scrubText order (maskSecret text secret) := rfl
      rw [hstep, ← ih]
      simp [h, scrubText]

/-- A scrubbed text has the masks of all secrets at once. -/
theorem scrubText_eq_maskAll {sanitizer : Sanitizer} (order : sanitizer.Order) {text : List CodePoint}
    (h : Independent Ink.code Traced.Inserted {secret | secret ∈ sanitizer.secrets ∧ secret ≠ REDACTED}
      (redaction Traced) (originals text)) :
    scrubText order.list text =
      (maskAll Ink.code (order.list.filter (· ≠ REDACTED)) (redaction Traced) (originals text)).map Traced.char := by
  have hmem : ∀ secret ∈ order.list.filter (· ≠ REDACTED), secret ∈ sanitizer.secrets ∧ secret ≠ REDACTED := by
    intro secret hsecret
    obtain ⟨hin, hne⟩ := List.mem_filter.mp hsecret
    exact ⟨(order.mem_iff secret).mp hin, by simpa using hne⟩
  have hnil : [] ∉ order.list.filter (· ≠ REDACTED) := fun hin => sanitizer.nonempty (hmem [] hin).1
  have hall := foldl_replace_eq_maskAll redaction_ne_nil inserted_of_mem_redaction hnil (order.nodup.filter _)
    (h.mono hmem)
  calc
    scrubText order.list text = scrubText (order.list.filter (· ≠ REDACTED)) ((originals text).map Traced.char) := by
      rw [map_char_originals, scrubText_filter]
    _ = (scrubText (order.list.filter (· ≠ REDACTED)) (originals text)).map Traced.char :=
      (scrubText_char _ _).symm
    _ = _ := congrArg (List.map Traced.char) hall

theorem sameInEveryOrder (h : self.sinks = [] ∨ self.ContentsIndependent span) : self.SameInEveryOrder span := by
  intro order order'
  rcases h with hsinks | hindependent
  · simp [emit, hsinks]
  · have hsame : ∀ text ∈ span.contents, scrubText order.list text = scrubText order'.list text := by
      intro text htext
      rw [scrubText_eq_maskAll order (hindependent text htext), scrubText_eq_maskAll order' (hindependent text htext)]
      congr 1
      refine maskFrom_congr (fun secret => ?_) _ _
      simp [order.mem_iff, order'.mem_iff]
    have hattributes : scrubItems order.list span.attributes = scrubItems order'.list span.attributes :=
      scrubItems_congr span.attributes fun text ht => hsame text (List.mem_append_right _ ht)
    have herror : span.error.map (scrubText order.list) = span.error.map (scrubText order'.list) := by
      cases herror : span.error with
      | none => rfl
      | some error =>
        have hin : error ∈ span.contents := by simp [Span.contents, herror]
        simp [hsame error hin]
    have hscrub : self.sanitizer.scrub order span = self.sanitizer.scrub order' span := by
      unfold scrub
      rw [hattributes, herror]
    simp [emit, hscrub]

-- Interference can go unnoticed: here both orders end in the same text.
example :
    scrubText [codePoints "[redacted]x", codePoints "x[redacted]"] (codePoints "[redacted]x[redacted]") =
      scrubText [codePoints "x[redacted]", codePoints "[redacted]x"] (codePoints "[redacted]x[redacted]") := by
  decide

/-- Redaction is complete exactly when no secret stands in a string that is not
scrubbed, and the order does not matter when the secrets do not interfere. -/
theorem redaction_complete :
    (self.Masked span ↔ self.sinks = [] ∨ self.LabelsClear span) ∧
      (self.sinks = [] ∨ self.ContentsIndependent span → self.SameInEveryOrder span) :=
  ⟨self.masked_iff span, self.sameInEveryOrder span⟩

/-- Two secrets that overlap, one of which stands in the name. -/
def overlapping : TelemetryService Unit where
  sanitizer := (Sanitizer.init.addSecret (codePoints "ab")).addSecret (codePoints "bc")
  sinks := [()]

/-- A span with the first secret in its name and an overlap in an attribute. -/
def leaking : Span CodePoint where
  kind := .turn
  name := codePoints "ab"
  attributes := [(.str (codePoints "x"), .str (codePoints "abc"))]
  durationMs := none
  error := none

theorem secrets_overlapping : overlapping.sanitizer.secrets = {codePoints "ab", codePoints "bc"} := by decide

def firstOrder : overlapping.sanitizer.Order where
  list := [codePoints "ab", codePoints "bc"]
  nodup := by decide
  mem_iff secret := by simp [secrets_overlapping]

def secondOrder : overlapping.sanitizer.Order where
  list := [codePoints "bc", codePoints "ab"]
  nodup := by decide
  mem_iff secret := by simp [secrets_overlapping, or_comm]

/-- The name is delivered as it is, and the attribute depends on the order. -/
theorem redaction_incomplete : ¬ overlapping.Masked leaking ∧ ¬ overlapping.SameInEveryOrder leaking := by
  constructor
  · intro hmasked
    have hclear : overlapping.LabelsClear leaking :=
      ((overlapping.masked_iff leaking).mp hmasked).resolve_left (by decide)
    exact hclear (codePoints "ab") (by decide) (codePoints "ab") (by decide) (List.infix_refl _)
  · intro hsame
    have hcontents := congrArg (List.map fun delivery => delivery.2.contents) (hsame firstOrder secondOrder)
    revert hcontents
    decide

end TelemetryService

end MinionAgent.Telemetry
