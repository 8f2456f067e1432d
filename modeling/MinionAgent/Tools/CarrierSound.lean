import MinionAgent.Tools.CarrierPointers

/-!
# MinionAgent.Tools.CarrierSound

When the carrier of a schema and an instance is faithful.

* `Faithful` — strings, numbers, values and references are kept;
* `new_faithful_iff` — there is such a carrier just when three patterns are free and
  the references of the schema are kept;
* `not_faithful_dependencies` — a schema where one is not.
-/

namespace MinionAgent.PreparedValidation

open NumericCarrier (mapKeys reference?)

/-! ## Faithfulness -/

/-- The strings to encode: strings and keys of both values, and segments of references. -/
def IsSource (schema value : PreparedValue) (s : PreparedString) : Prop :=
  s ∈ schema.strings ∨ s ∈ value.strings ∨ ∃ text ∈ schema.texts, pointer.isPointer text = true ∧ s ∈ segments text

/-- A value made of strings and numbers of the instance, as all its parts are. -/
structure PartOf (value v : PreparedValue) : Prop where
  strings : v.strings ⊆ value.strings
  numbers : v.numbers ⊆ value.numbers

/-- What the validation relies on. -/
structure Faithful (schema value : PreparedValue) (c : NumericCarrier) : Prop where
  strings : ∀ s, IsSource schema value s → ∃ t, c.encodeString? s = some t ∧ c.string t = s
  numbers : ∀ n, n ∈ schema.numbers ∨ n ∈ value.numbers →
    ∀ x, c.special (c.encode (.number n)) = some x ↔ x = n ∧ ∀ m, n ≠ .finite m
  injective : ∀ v w, PartOf value v → PartOf value w → c.encode v = c.encode w → v = w
  same : ∀ v w, PartOf value v → PartOf value w →
    (c.encode v).same Number.same (c.encode w) = v.same PreparedNumber.same w
  references : ∀ path key text tokens sub, IsReference schema path key text → pointer.tokens? text = some tokens →
    Subschema schema tokens sub → Resolves c schema path key sub

/-- All references of a schema to subschemas are kept. -/
def ReferencesKept (schema : PreparedValue) : Prop :=
  ∀ path key text tokens sub, IsReference schema path key text → pointer.tokens? text = some tokens →
    Subschema schema tokens sub → ReferenceKept schema path text tokens sub

/-! ## What was collected -/

theorem mem_collected {schema value : PreparedValue} {s : PreparedString} (h : IsSource schema value s) :
    s ∈ collected schema value := by
  unfold collected runtimeStrings
  rw [List.mem_append, List.mem_append]
  obtain hschema | hvalue | ⟨text, htext, hpointer, hs⟩ := h
  · exact .inl (.inl hschema)
  · exact .inl (.inr hvalue)
  · refine .inr (JsonTree.subset_collect_of_mem_texts htext _ _ _ ?_)
    rwa [if_pos hpointer]

theorem PartOf.within {schema value v : PreparedValue} (h : PartOf value v) :
    Within (collected schema value) (collectRuntime schema ++ collectRuntime value) v where
  strings _ hs := (within_instance schema value).strings (h.strings hs)
  numbers n hn := (within_instance schema value).numbers n (h.numbers hn)

variable {schema value : PreparedValue} {c : NumericCarrier}

/-- All but the references is kept by any new carrier. -/
theorem Carries.faithful (hc : Carries c (collected schema value) (collectRuntime schema ++ collectRuntime value))
    (hreferences : ∀ path key text tokens sub, IsReference schema path key text → pointer.tokens? text = some tokens →
      Subschema schema tokens sub → Resolves c schema path key sub) : Faithful schema value c where
  strings s hs := hc.encodeString (mem_collected hs)
  numbers n hn x := by
    have hknown : Known (collectRuntime schema ++ collectRuntime value) n := by
      cases hn with
      | inl hschema => exact (within_schema schema value).numbers n hschema
      | inr hvalue => exact (within_instance schema value).numbers n hvalue
    have hspecial : c.special (c.encode (.number n)) = _ := hc.special_encodeNumber hknown
    rw [hspecial]
    cases n <;> simp [eq_comm]
  injective v w hv hw h := hc.encode_injective hv.within hw.within h
  same v w hv hw := hc.same_encode hv.within hw.within
  references := hreferences

/-- There is a faithful carrier just when three patterns are free for tags and all references are kept. -/
theorem new_faithful_iff (schema value : PreparedValue) :
    (∃ c, NumericCarrier.new schema value = some c ∧ Faithful schema value c) ↔
      3 ≤ (free (collectRuntime schema ++ collectRuntime value) maxBits).card ∧ ReferencesKept schema := by
  have hschema : schema.strings ⊆ collected schema value := (within_schema schema value).strings
  cases new_cases schema value with
  | inl hnone =>
    obtain ⟨hnew, hfree⟩ := hnone
    simp [hnew, Nat.not_le.mpr hfree]
  | inr hsome =>
    obtain ⟨c, hnew, hfree, hc⟩ := hsome
    constructor
    · intro hexists
      obtain ⟨c', hnew', hfaithful⟩ := hexists
      obtain rfl : c = c' := Option.some.inj (hnew.symm.trans hnew')
      refine ⟨hfree, fun path key text tokens sub href htokens hsub => ?_⟩
      have hresolves := hfaithful.references path key text tokens sub href htokens hsub
      exact (hc.resolves_iff hschema href htokens hsub).mp hresolves
    · intro hkept
      refine ⟨c, hnew, hc.faithful fun path key text tokens sub href htokens hsub => ?_⟩
      exact (hc.resolves_iff hschema href htokens hsub).mpr (hkept.2 path key text tokens sub href htokens hsub)

/-! ## A schema where a reference is not kept -/

/-- A lone surrogate. -/
def lone : PreparedString := [0xD800]

/-- `{"$schema": "http://json-schema.org/draft-07/schema#", "definitions": {lone: true},
"dependencies": {"const": {"$ref": "#/definitions/" + lone}}}`. -/
def dependenciesSchema : PreparedValue :=
  .object [(units "$schema", .string (units "http://json-schema.org/draft-07/schema#")),
    (units "definitions", .object [(lone, .bool true)]),
    (units "dependencies", .object
      [(units "const", .object [(units "$ref", .string (units "#/definitions/" ++ lone))])])]

/-- An entry named `const` of `dependencies` is encoded as a literal, and the reference in it becomes a tag. -/
theorem not_faithful_dependencies :
    ¬ ∃ c, NumericCarrier.new dependenciesSchema (.object []) = some c ∧
      Faithful dependenciesSchema (.object []) c := by
  intro hexists
  obtain ⟨c, hnew, hfaithful⟩ := hexists
  have hreference : IsReference dependenciesSchema [units "dependencies", units "const"] (units "$ref")
      (units "#/definitions/" ++ lone) :=
    ⟨[(units "$ref", .string (units "#/definitions/" ++ lone))], ⟨rfl, rfl⟩, rfl, rfl⟩
  have hsub : Subschema dependenciesSchema [units "definitions", lone] (.bool true) := ⟨rfl, rfl⟩
  have hresolves := hfaithful.references _ _ _ [units "definitions", lone] _ hreference rfl hsub
  cases new_cases dependenciesSchema (.object []) with
  | inl hnone => cases hnone.1.symm.trans hnew
  | inr hsome =>
    obtain ⟨c', hnew', -, hc⟩ := hsome
    obtain rfl : c = c' := Option.some.inj (hnew.symm.trans hnew')
    have hkept := (hc.resolves_iff (within_schema _ _).strings hreference rfl hsub).mp hresolves
    obtain ⟨hplace | htext, -⟩ := hkept
    · obtain ⟨parent, hparent⟩ := hplace
      cases hparent
    · cases htext

end MinionAgent.PreparedValidation
