import Mathlib.Data.Finset.Card
import Mathlib.Order.Interval.Finset.Nat
import MinionAgent.Library.GraphCopy
import MinionAgent.Tools.NumericCarrier

/-!
# MinionAgent.Tools.CarrierFaithful

The carrier tells apart all that is in the schema and in the instance.

* `Carries` — what holds of a new carrier: tags that occur nowhere, each once;
* `new_cases` — when there is a new one;
* `string_encodeString`, `special_encodeNumber` — strings and non-finite numbers
  come back;
* `encode_injective`, `same_encode` — the encoding tells values apart.
-/

namespace MinionAgent.PreparedValidation

/-! ## Tags of numbers -/

/-- The patterns up to one that are not in use. -/
def free (used : List Nat) (start : Nat) : Finset Nat := (Finset.Icc 1 start).filter (· ∉ used)

theorem free_succ (used : List Nat) (bits : Nat) :
    free used (bits + 1) = if bits + 1 ∈ used then free used bits else insert (bits + 1) (free used bits) := by
  ext k
  simp only [free, Finset.mem_filter, Finset.mem_Icc]
  split
  · rw [Finset.mem_filter, Finset.mem_Icc]
    grind
  · rw [Finset.mem_insert, Finset.mem_filter, Finset.mem_Icc]
    grind

/-- The search finds the highest free pattern. -/
theorem unused_eq_some {used : List Nat} {start bits rest : Nat} (h : unused used start = some (bits, rest)) :
    bits ∉ used ∧ rest < bits ∧ bits ≤ start ∧ (free used start).card = (free used rest).card + 1 := by
  induction start with
  | zero => cases h
  | succ start ih =>
    rw [unused] at h
    rw [free_succ]
    split at h
    · rename_i hused
      rw [if_pos hused]
      obtain ⟨hnot, hlt, hle, hcard⟩ := ih h
      exact ⟨hnot, hlt, Nat.le_succ_of_le hle, hcard⟩
    · rename_i hused
      cases h
      rw [if_neg hused]
      refine ⟨hused, Nat.lt_succ_self _, Nat.le_refl _, Finset.card_insert_of_notMem ?_⟩
      simp [free]

theorem unused_eq_none {used : List Nat} {start : Nat} : unused used start = none ↔ (free used start).card = 0 := by
  induction start with
  | zero => simp [unused, free]
  | succ start ih =>
    rw [unused, free_succ]
    split
    · exact ih
    · simp

@[simp] theorem toBits_float (x : FiniteDouble) : (Number.float x).toBits = x.bits := rfl

/-- A pattern up to the largest double is that of a double. -/
theorem fromBits_of_le {bits : Nat} (h : bits ≤ maxBits) :
    ∃ x : FiniteDouble, x.bits = bits ∧ fromBits bits = some (.float x) := by
  have hfinite : bits < 2 ^ 64 ∧ bits / 2 ^ 52 % 2048 ≠ 2047 := by
    unfold maxBits at h
    omega
  exact ⟨⟨bits, hfinite.1, hfinite.2⟩, rfl, dif_pos hfinite⟩

theorem nextTag_cases (used : List Nat) {start : Nat} (h : start ≤ maxBits) :
    (nextTag used start = none ∧ (free used start).card = 0) ∨
      ∃ (x : FiniteDouble) (rest : Nat), nextTag used start = some (.float x, rest) ∧ x.bits ∉ used ∧ rest < x.bits ∧
        x.bits ≤ start ∧ (free used start).card = (free used rest).card + 1 := by
  unfold nextTag
  cases hunused : unused used start with
  | none => exact .inl ⟨rfl, unused_eq_none.mp hunused⟩
  | some found =>
    obtain ⟨bits, rest⟩ := found
    obtain ⟨hnot, hlt, hle, hcard⟩ := unused_eq_some hunused
    obtain ⟨x, rfl, hx⟩ := fromBits_of_le (hle.trans h)
    exact .inr ⟨x, rest, by simp [hx], hnot, hlt, hle, hcard⟩

/-- What the tags of numbers are: three different patterns that are not in use. -/
def AreTags (used : List Nat) (tags : Number × Number × Number) : Prop :=
  ∃ x y z : FiniteDouble, tags = (.float x, .float y, .float z) ∧ (x.bits ∉ used ∧ y.bits ∉ used ∧ z.bits ∉ used) ∧
    0 < z.bits ∧ z.bits < y.bits ∧ y.bits < x.bits ∧ x.bits ≤ maxBits

/-- There are three tags where three patterns are free. -/
theorem newTags_cases (used : List Nat) :
    (newTags used = none ∧ (free used maxBits).card < 3) ∨
      ∃ tags, newTags used = some tags ∧ 3 ≤ (free used maxBits).card ∧ AreTags used tags := by
  unfold newTags
  cases nextTag_cases used (Nat.le_refl maxBits) with
  | inl hnone => exact .inl ⟨by simp [hnone.1], by omega⟩
  | inr hfirst =>
    obtain ⟨x, bits, hx, hx_not, hbits, hle, hcard⟩ := hfirst
    have hbits_le : bits ≤ maxBits := by omega
    cases nextTag_cases used hbits_le with
    | inl hnone => exact .inl ⟨by simp [hx, hnone.1], by omega⟩
    | inr hsecond =>
      obtain ⟨y, bits', hy, hy_not, hbits', hle', hcard'⟩ := hsecond
      have hbits_le' : bits' ≤ maxBits := by omega
      cases nextTag_cases used hbits_le' with
      | inl hnone => exact .inl ⟨by simp [hx, hy, hnone.1], by omega⟩
      | inr hthird =>
        obtain ⟨z, bits'', hz, hz_not, hbits'', hle'', hcard''⟩ := hthird
        refine .inr ⟨(.float x, .float y, .float z), by simp [hx, hy, hz], by omega, x, y, z, rfl, ?_, by omega⟩
        exact ⟨hx_not, hy_not, hz_not⟩

/-! ## Tags of strings -/

theorem tagText_injective : Function.Injective tagText := by
  intro i j h
  rw [tagText, tagText, List.append_assoc, List.append_assoc] at h
  exact DecimalUnits.digits_injective (List.append_cancel_right (List.append_cancel_left h))

theorem mem_of_unusedTag {used : List PreparedString} {fuel index : Nat} (h : unusedTag used fuel index = none) :
    ∀ i < fuel, tagText (index + i) ∈ used := by
  induction fuel generalizing index with
  | zero => exact fun i hi => absurd hi (Nat.not_lt_zero i)
  | succ fuel ih =>
    intro i hi
    rw [unusedTag] at h
    split at h
    · rename_i hcontains
      cases i with
      | zero => exact List.contains_iff_mem.mp hcontains
      | succ i =>
        have := ih h i (by omega)
        rwa [Nat.add_assoc, Nat.add_comm 1 i] at this
    · cases h

/-- More tags than are in use are tried. -/
theorem exists_unusedTag (used : List PreparedString) (index : Nat) :
    ∃ tag next, unusedTag used (used.length + 1) index = some (tag, next) := by
  cases h : unusedTag used (used.length + 1) index with
  | some found => exact ⟨found.1, found.2, rfl⟩
  | none =>
    have hsub : (List.range (used.length + 1)).map (fun i => tagText (index + i)) ⊆ used := by
      intro tag htag
      obtain ⟨i, hi, rfl⟩ := List.mem_map.mp htag
      exact mem_of_unusedTag h i (List.mem_range.mp hi)
    have hnodup : ((List.range (used.length + 1)).map fun i => tagText (index + i)).Nodup :=
      List.nodup_range.map fun i j hij => by simpa using tagText_injective hij
    have hlength := (List.subperm_of_subset hnodup hsub).length_le
    simp at hlength

theorem unusedTag_eq_some {used : List PreparedString} {fuel index next : Nat} {tag : PreparedString}
    (h : unusedTag used fuel index = some (tag, next)) : tag ∉ used ∧ ∃ i, tag = tagText i := by
  induction fuel generalizing index with
  | zero => cases h
  | succ fuel ih =>
    rw [unusedTag] at h
    split at h
    · exact ih h
    · rename_i hused
      cases h
      exact ⟨fun hmem => hused (List.contains_iff_mem.mpr hmem), index, rfl⟩

/-- Every special string gets a tag, and no tag is in use. -/
theorem newStrings_eq (used special : List PreparedString) (index : Nat) :
    ∃ strings, newStrings used special index = some strings ∧ strings.map (·.2) = special ∧
      (strings.map (·.1)).Nodup ∧ ∀ tag ∈ strings.map (·.1), tag ∉ used ∧ ∃ i, tag = tagText i := by
  induction special generalizing used index with
  | nil => exact ⟨[], rfl, rfl, List.nodup_nil, by simp⟩
  | cons value special ih =>
    obtain ⟨tag, next, htag⟩ := exists_unusedTag used index
    obtain ⟨hused, htext⟩ := unusedTag_eq_some htag
    obtain ⟨strings, hstrings, hvalues, hnodup, hall⟩ := ih (tag :: used) next
    refine ⟨(tag, value) :: strings, by simp [newStrings, htag, hstrings], by simp [hvalues], ?_, ?_⟩
    · rw [List.map_cons, List.nodup_cons]
      exact ⟨fun hmem => (hall tag hmem).1 List.mem_cons_self, hnodup⟩
    · rw [List.map_cons, List.forall_mem_cons]
      refine ⟨⟨hused, htext⟩, fun tag' htag' => ?_⟩
      obtain ⟨hnot, htext'⟩ := hall tag' htag'
      exact ⟨fun h => hnot (List.mem_cons_of_mem _ h), htext'⟩

/-! ## A new carrier -/

/-- What holds of a carrier for some strings and some patterns of numbers. -/
structure Carries (c : NumericCarrier) (all : List PreparedString) (used : List Nat) : Prop where
  tags : AreTags used c.tags
  special : ∀ s, s ∈ c.strings.map (·.2) ↔ s ∈ all ∧ asStr s = none
  nodup : (c.strings.map (·.1)).Nodup
  tag : ∀ t ∈ c.strings.map (·.1), (∀ s ∈ all, asStr s = some s → t ≠ s) ∧ ∃ i, t = tagText i

theorem mem_specialStrings {all : List PreparedString} {s : PreparedString} :
    s ∈ specialStrings all ↔ s ∈ all ∧ asStr s = none := by
  rw [specialStrings, (List.perm_insertionSort _ _).mem_iff, List.mem_dedup, List.mem_filter, Option.isNone_iff_eq_none]

/-- There is a carrier where three patterns are free; it carries what was collected. -/
theorem new_cases (schema value : PreparedValue) :
    (NumericCarrier.new schema value = none ∧ (free (collectRuntime schema ++ collectRuntime value) maxBits).card < 3) ∨
      ∃ c, NumericCarrier.new schema value = some c ∧
        3 ≤ (free (collectRuntime schema ++ collectRuntime value) maxBits).card ∧
        Carries c (collected schema value) (collectRuntime schema ++ collectRuntime value) := by
  unfold NumericCarrier.new
  cases newTags_cases (collectRuntime schema ++ collectRuntime value) with
  | inl hnone => exact .inl ⟨by simp [hnone.1], hnone.2⟩
  | inr hsome =>
    obtain ⟨tags, hsome, hfree, htags⟩ := hsome
    obtain ⟨strings, hstrings, hvalues, hnodup, htag⟩ :=
      newStrings_eq ((collected schema value).filter fun s => (asStr s).isSome)
        (specialStrings (collected schema value)) 0
    refine .inr ⟨⟨tags, strings⟩, by simp [hsome, hstrings], hfree, htags, ?_, hnodup, ?_⟩
    · intro s
      rw [hvalues, mem_specialStrings]
    · intro t ht
      obtain ⟨hnot, htext⟩ := htag t ht
      refine ⟨fun s hs hasStr heq => hnot (heq ▸ List.mem_filter.mpr ⟨hs, by simp [hasStr]⟩), htext⟩

/-! ## Strings -/

theorem asStr_eq_some {s text : PreparedString} (h : asStr s = some text) : text = s := by
  unfold asStr at h
  split at h
  · exact (Option.some.inj h).symm
  · cases h

section

variable {c : NumericCarrier} {all : List PreparedString} {used : List Nat}

/-- `encode_string` finds every string that was collected, and `string` brings it back. -/
theorem Carries.encodeString (hc : Carries c all used) {s : PreparedString} (hs : s ∈ all) :
    ∃ t, c.encodeString? s = some t ∧ c.string t = s := by
  unfold NumericCarrier.encodeString? NumericCarrier.string
  cases hasStr : asStr s with
  | some text =>
    obtain rfl := asStr_eq_some hasStr
    refine ⟨text, rfl, ?_⟩
    cases hlookup : c.strings.lookup text with
    | none => rfl
    | some s' =>
      have hmem := List.mem_map_of_mem (f := Prod.fst) (GraphCopy.mem_of_lookup hlookup)
      exact absurd rfl ((hc.tag text hmem).1 text hs hasStr)
  | none =>
    obtain ⟨entry, hentry, hvalue⟩ := List.mem_map.mp ((hc.special s).mpr ⟨hs, hasStr⟩)
    cases hfind : c.strings.find? fun entry => entry.2 == s with
    | none => exact absurd hvalue (by simpa using List.find?_eq_none.mp hfind entry hentry)
    | some found =>
      have hfound : found.2 = s := by simpa using List.find?_some hfind
      refine ⟨found.1, rfl, ?_⟩
      have hlookup : c.strings.lookup found.1 = some found.2 :=
        (GraphCopy.lookup_eq_some_iff hc.nodup).mpr (List.mem_of_find?_eq_some hfind)
      rw [hlookup, hfound]
      rfl

theorem Carries.string_encodeString (hc : Carries c all used) {s : PreparedString} (hs : s ∈ all) :
    c.string (c.encodeString s) = s := by
  obtain ⟨t, ht, hstring⟩ := hc.encodeString hs
  rw [NumericCarrier.encodeString, ht, Option.getD_some, hstring]

/-- What was collected is told apart. -/
theorem Carries.encodeString_injective (hc : Carries c all used) {s s' : PreparedString} (hs : s ∈ all) (hs' : s' ∈ all)
    (h : c.encodeString s = c.encodeString s') : s = s' := by
  rw [← hc.string_encodeString hs, h, hc.string_encodeString hs']

/-! ## Numbers -/

/-- A number that was collected. -/
def Known (used : List Nat) (n : PreparedNumber) : Prop := ∀ m, n = .finite m → m.toBits ∈ used

/-- The pattern of a finite number is not that of a tag. -/
theorem Carries.special_encodeNumber (hc : Carries c all used) {n : PreparedNumber} (hn : Known used n) :
    c.special (.number (c.encodeNumber n)) = match n with
      | .finite _ => none
      | _ => some n := by
  obtain ⟨x, y, z, htags, ⟨hx, hy, hz⟩, hpos, hlt, hlt', hle⟩ := hc.tags
  unfold NumericCarrier.special NumericCarrier.encodeNumber
  rw [htags]
  cases n with
  | finite m =>
    have hne (t : FiniteDouble) (ht : t.bits ∉ used) : t.bits ≠ m.toBits := fun h => ht (h ▸ hn m rfl)
    simp [hne x hx, hne y hy, hne z hz]
  | positiveInfinity => exact if_pos rfl
  | negativeInfinity => simp [Nat.ne_of_gt hlt']
  | nan => simp [Nat.ne_of_gt hlt, Nat.ne_of_gt (hlt.trans hlt')]

theorem not_same_tag {x : FiniteDouble} (hpos : 0 < x.bits) (hle : x.bits ≤ maxBits) {m : Number}
    (hne : x.bits ≠ m.toBits) :
    (Number.float x).same m = false ∧ m.same (.float x) = false := by
  cases m with
  | float y =>
    have hmod : x.bits % 2 ^ 63 ≠ 0 := by
      unfold maxBits at hle
      omega
    have hne' : x.bits ≠ y.bits := hne
    simp [Number.same, hne', Ne.symm hne']
    omega
  | _ => exact ⟨rfl, rfl⟩

theorem same_self (x : FiniteDouble) : (Number.float x).same (.float x) = true := by simp [Number.same]

/-- Equality of numbers is kept. -/
theorem Carries.same_encodeNumber (hc : Carries c all used) {n n' : PreparedNumber} (hn : Known used n)
    (hn' : Known used n') : (c.encodeNumber n).same (c.encodeNumber n') = n.same n' := by
  obtain ⟨x, y, z, htags, ⟨hx, hy, hz⟩, hpos, hlt, hlt', hle⟩ := hc.tags
  have hfirst {m : Number} (h : x.bits ≠ m.toBits) := not_same_tag (by omega) hle h
  have hsecond {m : Number} (h : y.bits ≠ m.toBits) := not_same_tag (hpos.trans hlt) (by omega) h
  have hthird {m : Number} (h : z.bits ≠ m.toBits) := not_same_tag hpos (by omega) h
  have hne {t : FiniteDouble} (ht : t.bits ∉ used) {m : Number} (hm : m.toBits ∈ used) : t.bits ≠ m.toBits := fun h =>
    ht (h ▸ hm)
  have hxy : x.bits ≠ (Number.float y).toBits := Nat.ne_of_gt hlt'
  have hyz : y.bits ≠ (Number.float z).toBits := Nat.ne_of_gt hlt
  have hxz : x.bits ≠ (Number.float z).toBits := Nat.ne_of_gt (hlt.trans hlt')
  unfold NumericCarrier.encodeNumber
  rw [htags]
  cases n with
  | finite m =>
    have hm := hn m rfl
    cases n' with
    | finite m' => rfl
    | positiveInfinity => exact (hfirst (hne hx hm)).2
    | negativeInfinity => exact (hsecond (hne hy hm)).2
    | nan => exact (hthird (hne hz hm)).2
  | positiveInfinity =>
    cases n' with
    | finite m' => exact (hfirst (hne hx (hn' m' rfl))).1
    | positiveInfinity => exact same_self x
    | negativeInfinity => exact (hfirst hxy).1
    | nan => exact (hfirst hxz).1
  | negativeInfinity =>
    cases n' with
    | finite m' => exact (hsecond (hne hy (hn' m' rfl))).1
    | positiveInfinity => exact (hfirst hxy).2
    | negativeInfinity => exact same_self y
    | nan => exact (hsecond hyz).1
  | nan =>
    cases n' with
    | finite m' => exact (hthird (hne hz (hn' m' rfl))).1
    | positiveInfinity => exact (hfirst hxz).2
    | negativeInfinity => exact (hsecond hyz).2
    | nan => exact same_self z

theorem Carries.encodeNumber_injective (hc : Carries c all used) {n n' : PreparedNumber} (hn : Known used n)
    (hn' : Known used n') (h : c.encodeNumber n = c.encodeNumber n') : n = n' := by
  have hspecial := hc.special_encodeNumber hn
  rw [h, hc.special_encodeNumber hn'] at hspecial
  cases n with
  | finite m =>
    cases n' with
    | finite m' => exact congrArg PreparedNumber.finite h
    | _ => cases hspecial
  | _ =>
    cases n' with
    | finite m' => cases hspecial
    | _ => first | rfl | cases hspecial

/-! ## Values -/

/-- A value whose strings and numbers were collected. -/
structure Within (all : List PreparedString) (used : List Nat) (v : PreparedValue) : Prop where
  strings : v.strings ⊆ all
  numbers : ∀ n ∈ v.numbers, Known used n

/-- The encoding tells values apart. -/
theorem Carries.encode_injective (hc : Carries c all used) {v w : PreparedValue} (hv : Within all used v)
    (hw : Within all used w) (h : c.encode v = c.encode w) : v = w :=
  JsonTree.map_injective (fun _ hs _ hs' => hc.encodeString_injective (hv.strings hs) (hw.strings hs'))
    (fun n hn n' hn' => hc.encodeNumber_injective (hv.numbers n hn) (hw.numbers n' hn')) h

/-- Equality of data is kept. -/
theorem Carries.same_encode (hc : Carries c all used) {v w : PreparedValue} (hv : Within all used v)
    (hw : Within all used w) : (c.encode v).same Number.same (c.encode w) = v.same PreparedNumber.same w :=
  JsonTree.same_map (fun _ hs _ hs' => hc.encodeString_injective (hv.strings hs) (hw.strings hs'))
    fun n hn n' hn' => hc.same_encodeNumber (hv.numbers n hn) (hw.numbers n' hn')

end

theorem toBits_mem_collectRuntime {v : PreparedValue} {m : Number} (h : .finite m ∈ v.numbers) :
    m.toBits ∈ collectRuntime v :=
  JsonTree.subset_collect_of_mem_numbers h _ _ _ List.mem_cons_self

theorem within_schema (schema value : PreparedValue) :
    Within (collected schema value) (collectRuntime schema ++ collectRuntime value) schema where
  strings _ hs := List.mem_append_left _ (List.mem_append_left _ hs)
  numbers _ hn _ hm := List.mem_append_left _ (toBits_mem_collectRuntime (hm ▸ hn))

theorem within_instance (schema value : PreparedValue) :
    Within (collected schema value) (collectRuntime schema ++ collectRuntime value) value where
  strings _ hs := List.mem_append_left _ (List.mem_append_right _ hs)
  numbers _ hn _ hm := List.mem_append_right _ (toBits_mem_collectRuntime (hm ▸ hn))

end MinionAgent.PreparedValidation
