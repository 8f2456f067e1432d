import MinionAgent.Auth.JsJson
import Mathlib.Data.List.Chain

/-!
# MinionAgent.Auth.JsJsonExact

`js_json_stringify` writes JSON that is read back as the value.

* `readsString_flatMap` — strings, if no surrogates make a pair;
* `shortestDigits_value`, `reads_jsNumberText` — numbers, in ECMAScript's
  notation;
* `isArrayIndex_iff`, `enumerates_jsPropertyOrder` — the order of an object's
  keys;
* `stringify_exact` — whole values.
-/

namespace MinionAgent.JsJson

open Rfc8259 (CodePoint Json Reads ReadsString ReadsMember codePoint joinPairs)
open Py.Json (backslash quoteMark hex4 CodeUnit scanUnits isHigh isLow)

/-! ## Strings -/

/-- No high surrogate is in front of a low one. -/
def Unpaired (s : List CodePoint) : Prop := s.IsChain fun c d => ¬ (isHigh c.val = true ∧ isLow d.val = true)

instance (s : List CodePoint) : Decidable (Unpaired s) := inferInstanceAs (Decidable (List.IsChain _ s))

/-- What the text of a character is scanned as. -/
def unitOf (c : CodePoint) : CodeUnit :=
  if h : needsEscape c = true then
    match NAMED_ESCAPES.lookup c.val with
    | some _ => .char (Char.ofNat c.val)
    | none => .escaped c.val
  else .char (literalChar c h)

theorem toNat_literalChar (c : CodePoint) (h : ¬ needsEscape c = true) : (literalChar c h).toNat = c.val :=
  UInt32.toNat_ofNatLT

/-- A named escape is a short escape of JSON. -/
theorem namedEscape_short {n : Nat} {text : List Char} (h : NAMED_ESCAPES.lookup n = some text) :
    ∃ e, text = [backslash, e] ∧ e ≠ 'u' ∧ e ≠ '/' ∧ Py.Json.shortEscapes.lookup e = some (Char.ofNat n) ∧
      (Char.ofNat n).toNat = n := by
  have htable : ∀ escape ∈ NAMED_ESCAPES, ∃ e, escape.2 = [backslash, e] ∧ e ≠ 'u' ∧ e ≠ '/' ∧
      Py.Json.shortEscapes.lookup e = some (Char.ofNat escape.1) ∧ (Char.ofNat escape.1).toNat = escape.1 := by
    intro escape hmem
    simp only [NAMED_ESCAPES, List.mem_cons, List.not_mem_nil, or_false] at hmem
    rcases hmem with rfl | rfl | rfl | rfl | rfl | rfl | rfl <;> exact ⟨_, rfl, by decide⟩
  have hmem : (n, text) ∈ NAMED_ESCAPES := by
    obtain ⟨before, after, heq, -⟩ := List.lookup_eq_some_iff.mp h
    rw [heq]
    simp
  exact htable _ hmem

/-- What is escaped has four digits at most. -/
theorem lt_of_needsEscape {c : CodePoint} (h : needsEscape c = true) : c.val < 65536 := by
  simp only [needsEscape, Bool.or_eq_true, Bool.and_eq_true, decide_eq_true_eq, beq_iff_eq] at h
  omega

theorem literalChar_plain {c : CodePoint} (h : ¬ needsEscape c = true) :
    literalChar c h ≠ quoteMark ∧ literalChar c h ≠ backslash ∧ ' ' ≤ literalChar c h := by
  have htoNat := toNat_literalChar c h
  have hvalues := h
  simp only [needsEscape, Bool.or_eq_true, Bool.and_eq_true, decide_eq_true_eq, beq_iff_eq, not_or, not_and] at hvalues
  refine ⟨?_, ?_, ?_⟩
  · intro heq
    rw [heq, show quoteMark.toNat = 0x22 from rfl] at htoNat
    omega
  · intro heq
    rw [heq, show backslash.toNat = 0x5C from rfl] at htoNat
    omega
  · show (' ').toNat ≤ (literalChar c h).toNat
    rw [htoNat, show (' ').toNat = 0x20 from rfl]
    omega

theorem scanUnits_charText (c : CodePoint) (cs : List Char) :
    scanUnits (charText c ++ cs) = (scanUnits cs).map fun p => (unitOf c :: p.1, p.2) := by
  unfold charText unitOf
  by_cases hescape : needsEscape c = true
  · simp only [dif_pos hescape, escapeChar]
    cases hlookup : NAMED_ESCAPES.lookup c.val with
    | some text =>
      obtain ⟨e, rfl, hu, hslash, hshort, -⟩ := namedEscape_short hlookup
      exact Py.Json.scanUnits_short hu hslash hshort cs
    | none => exact Py.Json.scanUnits_escapeUnit (lt_of_needsEscape hescape) cs
  · simp only [dif_neg hescape]
    obtain ⟨hquote, hback, hspace⟩ := literalChar_plain hescape
    exact Py.Json.scanUnits_plain hquote hback hspace cs

theorem scanUnits_flatMap (s : List CodePoint) (rest : List Char) :
    scanUnits (s.flatMap charText ++ quoteMark :: rest) = some (s.map unitOf, rest) := by
  induction s with
  | nil => exact Py.Json.scanUnits_quoteMark rest
  | cons c s ih =>
    rw [List.flatMap_cons, List.append_assoc, scanUnits_charText, ih]
    rfl

/-- A unit is the code point, as a character or as an escape. -/
theorem unitOf_cases (c : CodePoint) :
    (∃ ch, unitOf c = .char ch ∧ codePoint ch.toNat = c) ∨ unitOf c = .escaped c.val := by
  unfold unitOf
  by_cases hescape : needsEscape c = true
  · rw [dif_pos hescape]
    cases hlookup : NAMED_ESCAPES.lookup c.val with
    | some text =>
      obtain ⟨e, -, -, -, -, htoNat⟩ := namedEscape_short hlookup
      exact Or.inl ⟨_, rfl, by rw [htoNat]; exact Fin.ofNat_val_eq_self c⟩
    | none => exact Or.inr rfl
  · rw [dif_neg hescape]
    exact Or.inl ⟨_, rfl, by rw [toNat_literalChar]; exact Fin.ofNat_val_eq_self c⟩

/-- Unpaired surrogates stay alone. -/
theorem joinPairs_map {s : List CodePoint} (h : Unpaired s) : joinPairs (s.map unitOf) = s := by
  induction s with
  | nil => rfl
  | cons c s ih =>
    have hrest := ih (List.IsChain.tail h)
    rw [List.map_cons]
    rcases unitOf_cases c with ⟨ch, hunit, hcode⟩ | hunit
    · rw [hunit, joinPairs, hrest, hcode]
    · rw [hunit]
      have hself : codePoint c.val = c := Fin.ofNat_val_eq_self c
      cases s with
      | nil => simp [joinPairs, hself]
      | cons d s =>
        rw [List.map_cons] at hrest ⊢
        rcases unitOf_cases d with ⟨ch, hnext, -⟩ | hnext
        · rw [hnext] at hrest ⊢
          rw [joinPairs, hrest, hself]
          simp
        · rw [hnext] at hrest ⊢
          have hpair : (isHigh c.val && isLow d.val) = false := by
            have hhead := (List.isChain_cons_cons.mp h).1
            rwa [← Bool.and_eq_true, Bool.not_eq_true] at hhead
          rw [joinPairs, hpair, if_neg Bool.false_ne_true, hrest, hself]

theorem readsString_flatMap {s : List CodePoint} (h : Unpaired s) : ReadsString (s.flatMap charText) s := by
  intro rest
  rw [Rfc8259.scanString, scanUnits_flatMap, Option.map_some]
  simp only [joinPairs_map h]

theorem reads_jsJsonString {s : List CodePoint} (h : Unpaired s) : Reads (jsJsonString s) (.string s) :=
  Rfc8259.reads_string (readsString_flatMap h)

/-! ## Numbers -/

/-- `int(s)` of the digits. -/
def intOf (digits : List (Fin 10)) : Nat := Nat.ofDigitChars 10 (digits.map digitText) 0

/-- The number of a tuple. -/
def DecimalTuple.value (magnitude : DecimalTuple) : ℚ := intOf magnitude.digits * 10 ^ magnitude.exponent

theorem intOf_concat_zero (digits : List (Fin 10)) : intOf (digits ++ [0]) = 10 * intOf digits := by
  have hzero : [0].map digitText = List.replicate 1 '0' := by decide
  rw [intOf, List.map_append, Nat.ofDigitChars_append, hzero, Nat.ofDigitChars_replicate_zero]
  rfl

/-- The loop keeps the number and the first digit, and leaves no zero at the end. -/
theorem popZeros_spec (digits : List (Fin 10)) (exponent : ℤ) :
    (intOf (popZeros digits exponent).1.reverse : ℚ) * 10 ^ (popZeros digits exponent).2 =
        intOf digits.reverse * 10 ^ exponent ∧
      (popZeros digits exponent).1.getLast? = digits.getLast? ∧
      (digits.getLast? ≠ some 0 → (popZeros digits exponent).1.head? ≠ some 0) := by
  induction digits, exponent using popZeros.induct with
  | case1 d digits exponent ih =>
    rw [popZeros]
    obtain ⟨hvalue, hlast, hhead⟩ := ih
    refine ⟨?_, ?_, ?_⟩
    · have hdigits : intOf (0 :: d :: digits).reverse = 10 * intOf (d :: digits).reverse := by
        rw [@List.reverse_cons _ 0, intOf_concat_zero]
      rw [hvalue, hdigits, zpow_add_one₀ (by norm_num)]
      push_cast
      ring
    · rw [hlast]
      simp
    · simpa using hhead
  | case2 digits exponent hnot =>
    rw [popZeros]
    · refine ⟨rfl, rfl, fun hlast hhead => ?_⟩
      match digits with
      | [] => simp at hhead
      | [d] => exact hlast (by simpa using hhead)
      | d :: d' :: digits => exact hnot d' digits (by rw [List.head?_cons, Option.some.injEq] at hhead; rw [hhead])
    · exact hnot

/-- The digits and the exponent of ECMAScript: digits without a zero at either end, which denote the number. -/
theorem shortestDigits_spec (magnitude : DecimalTuple) :
    Rfc8259.Digits (shortestDigitsAndExponent magnitude).1 ∧
      (shortestDigitsAndExponent magnitude).1.head? ≠ some '0' ∧
      (shortestDigitsAndExponent magnitude).1.getLast? ≠ some '0' ∧
      (Nat.ofDigitChars 10 (shortestDigitsAndExponent magnitude).1 0 : ℚ) *
          10 ^ ((shortestDigitsAndExponent magnitude).2 - (shortestDigitsAndExponent magnitude).1.length) =
        magnitude.value := by
  obtain ⟨hvalue, hlast, hhead⟩ := popZeros_spec magnitude.digits.reverse magnitude.exponent
  have hzero : ∀ d : Fin 10, digitText d = '0' ↔ d = 0 := by decide
  have hdigit : ∀ d : Fin 10, (digitText d).isDigit = true := by decide
  have hleading : (popZeros magnitude.digits.reverse magnitude.exponent).1.getLast? ≠ some 0 := by
    rw [hlast, List.getLast?_reverse]
    exact magnitude.leading
  have htrailing := hhead (by rw [List.getLast?_reverse]; exact magnitude.leading)
  have hne : (popZeros magnitude.digits.reverse magnitude.exponent).1 ≠ [] := by
    intro hnil
    rw [hnil, List.getLast?_nil, List.getLast?_reverse] at hlast
    exact magnitude.ne_nil (List.head?_eq_none_iff.mp hlast.symm)
  simp only [shortestDigitsAndExponent]
  refine ⟨⟨by simpa using hne, ?_⟩, ?_, ?_, ?_⟩
  · intro c hc
    obtain ⟨d, -, rfl⟩ := List.mem_map.mp hc
    exact hdigit d
  · rw [List.head?_map, List.head?_reverse]
    intro heq
    obtain ⟨d, hd, hchar⟩ := Option.map_eq_some_iff.mp heq
    exact hleading (by rw [hd, (hzero d).mp hchar])
  · rw [List.getLast?_map, List.getLast?_reverse]
    intro heq
    obtain ⟨d, hd, hchar⟩ := Option.map_eq_some_iff.mp heq
    exact htrailing (by rw [hd, (hzero d).mp hchar])
  · rw [add_sub_cancel_right]
    rw [List.reverse_reverse] at hvalue
    exact hvalue

/-- The number a value's number is. -/
def Number.value : Number → ℚ
  | .zero => 0
  | .finite negative magnitude => (if negative then -1 else 1) * magnitude.value
  | .nonFinite => 0

/-- A finite number is written in ECMAScript's notation. -/
theorem jsFiniteToString_eq (negative : Bool) (magnitude : DecimalTuple) :
    jsFiniteToString negative magnitude = (if negative then ['-'] else []) ++
      Ecma.toText (shortestDigitsAndExponent magnitude).1 (shortestDigitsAndExponent magnitude).2 := by
  rw [jsFiniteToString, ← Ecma.caseText_eq_toText]
  rfl

/-- A number is read as it is. -/
theorem reads_jsNumberText {x : Number} (h : x ≠ .nonFinite) : Reads (jsNumberText x) (.number x.value) := by
  match x with
  | .nonFinite => exact absurd rfl h
  | .zero =>
    let zero : Rfc8259.NumberText :=
      { negative := false, int := ['0'], frac := [], exponent := none, int_digits := ⟨by simp, by simp⟩
        int_leading := Or.inl rfl, frac_digits := by simp, exponent_digits := by simp }
    have hvalue : zero.value = 0 := by
      have hdigits : Nat.ofDigitChars 10 (['0'] ++ []) 0 = 0 := by decide
      simp only [zero, Rfc8259.NumberText.value, Rfc8259.denotes, hdigits]
      simp
    have hreads := zero.reads
    rwa [hvalue] at hreads
  | .finite negative magnitude =>
    obtain ⟨hdigits, hleading, -, hvalue⟩ := shortestDigits_spec magnitude
    obtain ⟨text, htext, hnumber⟩ := Rfc8259.NumberText.exists_toText hdigits hleading negative
      (shortestDigitsAndExponent magnitude).2
    have hreads := text.reads
    rw [htext, hnumber, Rfc8259.NumberText.decimal, mul_assoc, hvalue] at hreads
    rw [jsNumberText, jsFiniteToString_eq]
    exact hreads

/-! ## Keys -/

/-- The decimal text of a number, as a key. -/
def decimalKey (i : Nat) : List CodePoint := (Nat.toDigits 10 i).map fun c => codePoint c.toNat

theorem digit_codePoint {c : Char} (h : c.isDigit = true) :
    isAsciiDigit (codePoint c.toNat) = true ∧ (codePoint c.toNat).val = c.toNat := by
  rw [Char.isDigit, Bool.and_eq_true, decide_eq_true_eq, decide_eq_true_eq] at h
  have hlow : 0x30 ≤ c.toNat := UInt32.le_iff_toNat_le.mp h.1
  have hhigh : c.toNat ≤ 0x39 := UInt32.le_iff_toNat_le.mp h.2
  have hval : (codePoint c.toNat).val = c.toNat := Nat.mod_eq_of_lt (by omega)
  refine ⟨?_, hval⟩
  rw [isAsciiDigit, hval, Bool.and_eq_true, decide_eq_true_eq, decide_eq_true_eq]
  exact ⟨hlow, hhigh⟩

theorem isDigit_of_mem {i : Nat} {c : Char} (h : c ∈ Nat.toDigits 10 i) : c.isDigit = true :=
  Nat.isDigit_of_mem_toDigits (by omega) (by omega) h

/-- `int` reads a decimal text back. -/
theorem keyInt_decimalKey (i : Nat) : keyInt (decimalKey i) = i := by
  have hfold : ∀ (cs : List Char) (acc : Nat), (∀ c ∈ cs, c.isDigit = true) →
      (cs.map fun c => codePoint c.toNat).foldl (fun acc c => acc * 10 + (c.val - 0x30)) acc =
        Nat.ofDigitChars 10 cs acc := by
    intro cs
    induction cs with
    | nil => simp
    | cons c cs ih =>
      intro acc hcs
      have hval := (digit_codePoint (hcs c List.mem_cons_self)).2
      rw [List.map_cons, List.foldl_cons, ih _ fun d hd => hcs d (List.mem_cons_of_mem _ hd),
        Nat.ofDigitChars_cons, hval, Nat.mul_comm]
      rfl
  rw [keyInt, decimalKey, hfold _ _ fun c hc => isDigit_of_mem hc, Nat.ofDigitChars_ten_toDigits]

theorem keyInt_concat (key : List CodePoint) (c : CodePoint) :
    keyInt (key ++ [c]) = keyInt key * 10 + (c.val - 0x30) := by
  simp [keyInt]

/-- The code point of a digit. -/
theorem codePoint_digit {c : CodePoint} (h : isAsciiDigit c = true) :
    c.val - 0x30 < 10 ∧ codePoint (c.val - 0x30).digitChar.toNat = c := by
  rw [isAsciiDigit, Bool.and_eq_true, decide_eq_true_eq, decide_eq_true_eq] at h
  have hlt : c.val - 0x30 < 10 := by omega
  have hdigit : ∀ d < 10, d.digitChar.toNat = 0x30 + d := by decide
  refine ⟨hlt, ?_⟩
  rw [hdigit _ hlt, Nat.add_sub_cancel' h.1]
  exact Fin.ofNat_val_eq_self c

/-- Digits without a leading zero are the decimal text of their number. -/
theorem decimalKey_keyInt (key : List CodePoint) (hne : key ≠ []) (hdigits : ∀ c ∈ key, isAsciiDigit c = true)
    (hleading : key = [0x30] ∨ key.head? ≠ some 0x30) : decimalKey (keyInt key) = key := by
  induction key using List.reverseRecOn with
  | nil => exact absurd rfl hne
  | append_singleton key c ih =>
    obtain ⟨hlt, hcode⟩ := codePoint_digit (hdigits c (by simp))
    rw [keyInt_concat]
    cases key with
    | nil =>
      have hsmall : keyInt [] * 10 + (c.val - 0x30) = c.val - 0x30 := by simp [keyInt]
      rw [hsmall, decimalKey, Nat.toDigits_of_lt_base hlt, List.map_singleton, hcode]
      rfl
    | cons first key =>
      have hfirst : (first :: key).head? ≠ some 0x30 := by
        rcases hleading with hone | hhead
        · simp at hone
        · simpa using hhead
      have hkey := ih (List.cons_ne_nil _ _) (fun d hd => hdigits d (List.mem_append_left _ hd)) (Or.inr hfirst)
      have hpos : 0 < keyInt (first :: key) := by
        refine Nat.pos_of_ne_zero fun hzero => hfirst ?_
        rw [← hkey, hzero]
        decide
      have hquot : (keyInt (first :: key) * 10 + (c.val - 0x30)) / 10 = keyInt (first :: key) := by omega
      have hrem : (keyInt (first :: key) * 10 + (c.val - 0x30)) % 10 = c.val - 0x30 := by omega
      rw [decimalKey, Nat.toDigits_of_base_le (by omega) (by omega), hquot, hrem, List.map_append, List.map_singleton,
        hcode]
      rw [decimalKey] at hkey
      rw [hkey]

/-- A key that is an array index: the decimal text of a number up to `2³² - 2`. -/
def ArrayIndex (key : List CodePoint) (i : Nat) : Prop := i ≤ 2 ^ 32 - 2 ∧ key = decimalKey i

theorem isArrayIndex_decimalKey {i : Nat} (h : i ≤ MAX_ARRAY_INDEX) : isArrayIndex (decimalKey i) = true := by
  have hne : decimalKey i ≠ [] := by simp [decimalKey]
  have hall : (decimalKey i).all isAsciiDigit = true := by
    rw [List.all_eq_true]
    intro c hc
    obtain ⟨d, hd, rfl⟩ := List.mem_map.mp hc
    exact (digit_codePoint (isDigit_of_mem hd)).1
  have hlength : (decimalKey i).length ≤ MAX_ARRAY_INDEX_DIGITS := by
    rw [decimalKey, List.length_map, MAX_ARRAY_INDEX_DIGITS, Nat.length_toDigits_le_iff (by omega) (by omega)]
    exact lt_of_le_of_lt h (by decide)
  have hleading : decimalKey i = [0x30] ∨ (decimalKey i).head? ≠ some 0x30 := by
    rcases Nat.eq_zero_or_pos i with rfl | hpos
    · exact Or.inl (by decide)
    · refine Or.inr fun hzero => Py.Json.head?_toDigits hpos ?_
      rw [decimalKey, List.head?_map] at hzero
      obtain ⟨c, hc, hcode⟩ := Option.map_eq_some_iff.mp hzero
      have hval := (digit_codePoint (isDigit_of_mem (List.mem_of_head? hc))).2
      rw [hcode] at hval
      rw [hc, ← Char.ofNat_toNat c, ← hval]
      rfl
  rw [isArrayIndex, hall, keyInt_decimalKey]
  simp only [hne, Bool.not_true, Bool.or_false, decide_false, Bool.false_eq_true, if_false]
  rw [if_neg, if_neg (Nat.not_lt.mpr hlength)]
  · exact decide_eq_true h
  · rw [Bool.and_eq_true, decide_eq_true_eq, decide_eq_true_eq]
    rintro ⟨hother, hzero⟩
    exact hleading.elim hother fun hhead => hhead hzero

theorem decimalKey_of_isArrayIndex {key : List CodePoint} (h : isArrayIndex key = true) :
    keyInt key ≤ MAX_ARRAY_INDEX ∧ decimalKey (keyInt key) = key := by
  rw [isArrayIndex] at h
  split_ifs at h with hdigits hzero hlength
  rw [Bool.or_eq_true, decide_eq_true_eq, Bool.not_eq_true', not_or, Bool.not_eq_false, List.all_eq_true] at hdigits
  rw [Bool.and_eq_true, decide_eq_true_eq, decide_eq_true_eq, not_and_or, not_not] at hzero
  exact ⟨of_decide_eq_true h, decimalKey_keyInt key hdigits.1 hdigits.2 hzero⟩

/-- `_is_array_index` recognises the array indices. -/
theorem isArrayIndex_iff (key : List CodePoint) : isArrayIndex key = true ↔ ∃ i, ArrayIndex key i := by
  constructor
  · intro h
    obtain ⟨hmax, hkey⟩ := decimalKey_of_isArrayIndex h
    exact ⟨keyInt key, hmax, hkey.symm⟩
  · rintro ⟨i, hmax, rfl⟩
    exact isArrayIndex_decimalKey hmax

theorem ArrayIndex.keyInt_eq {key : List CodePoint} {i : Nat} (h : ArrayIndex key i) : keyInt key = i := by
  rw [h.2, keyInt_decimalKey]

section

variable {α β : Type}

/-- An order of an object's items: the array indices first, ascending, and the others as they were inserted. -/
structure Enumerates (items order : List (List CodePoint × α)) : Prop where
  perm : order.Perm items
  split : ∃ indexed others, order = indexed ++ others ∧
    (∀ item ∈ indexed, ∃ i, ArrayIndex item.1 i) ∧
    (indexed.Pairwise fun x y => ∀ i j, ArrayIndex x.1 i → ArrayIndex y.1 j → i ≤ j) ∧
    (∀ item ∈ others, ¬ ∃ i, ArrayIndex item.1 i) ∧ others.Sublist items

instance : Std.Total (byKeyInt (α := α)) := ⟨fun x y => le_total (keyInt x.1) (keyInt y.1)⟩

instance : IsTrans (List CodePoint × α) byKeyInt := ⟨fun _ _ _ => le_trans⟩

theorem enumerates_jsPropertyOrder (items : List (List CodePoint × α)) : Enumerates items (jsPropertyOrder items) := by
  refine ⟨?_, _, _, rfl, ?_, ?_, ?_, List.filter_sublist⟩
  · exact ((List.perm_insertionSort _ _).append_right _).trans (List.filter_append_perm _ _)
  · intro item hitem
    rw [List.mem_insertionSort, List.mem_filter] at hitem
    exact (isArrayIndex_iff _).mp hitem.2
  · refine (List.pairwise_insertionSort byKeyInt _).imp fun {x y} hle i j hi hj => ?_
    rw [← hi.keyInt_eq, ← hj.keyInt_eq]
    exact hle
  · intro item hitem hindex
    rw [List.mem_filter, (isArrayIndex_iff _).mpr hindex] at hitem
    exact Bool.false_ne_true hitem.2

/-- The order is one of the keys, whatever the values. -/
theorem jsPropertyOrder_map (f : α → β) (items : List (List CodePoint × α)) :
    jsPropertyOrder (items.map fun item => (item.1, f item.2)) =
      (jsPropertyOrder items).map fun item => (item.1, f item.2) := by
  have hsort : ∀ items : List (List CodePoint × α),
      (items.map fun item => (item.1, f item.2)).insertionSort byKeyInt =
        (items.insertionSort byKeyInt).map fun item => (item.1, f item.2) := by
    intro items
    have hkeys := List.map_insertionSort byKeyInt byKeyInt (fun item : List CodePoint × α => (item.1, f item.2)) items
      fun _ _ _ _ => Iff.rfl
    exact hkeys.symm
  simp only [jsPropertyOrder, List.map_append, ← hsort, List.filter_map]
  rfl

end

/-! ## Values -/

mutual

/-- What holds of every number and of every string and key in a value. -/
def JsonValue.All (onNumber : Number → Prop) (onString : List CodePoint → Prop) : JsonValue → Prop
  | .none | .bool _ => True
  | .number x => onNumber x
  | .str s => onString s
  | .list xs => AllElements onNumber onString xs
  | .dict items => AllItems onNumber onString items

def AllElements (onNumber : Number → Prop) (onString : List CodePoint → Prop) : List JsonValue → Prop
  | [] => True
  | x :: xs => x.All onNumber onString ∧ AllElements onNumber onString xs

def AllItems (onNumber : Number → Prop) (onString : List CodePoint → Prop) : List (List CodePoint × JsonValue) → Prop
  | [] => True
  | (key, value) :: items => onString key ∧ value.All onNumber onString ∧ AllItems onNumber onString items

end

/-- No number is NaN or an infinity. -/
def JsonValue.Finite (v : JsonValue) : Prop := v.All (· ≠ .nonFinite) fun _ => True

/-- No string or key has a high surrogate in front of a low one. -/
def JsonValue.Unpaired (v : JsonValue) : Prop := v.All (fun _ => True) JsJson.Unpaired

/-- A JSON text's value is the value: alike in all but the order of an object's keys, which is ECMAScript's. -/
inductive Denotes : JsonValue → Json → Prop
  | none : Denotes .none .null
  | bool (b : Bool) : Denotes (.bool b) (.bool b)
  | number (x : Number) : Denotes (.number x) (.number x.value)
  | str (s : List CodePoint) : Denotes (.str s) (.string s)
  | list {xs : List JsonValue} {elements : List Json} (h : List.Forall₂ Denotes xs elements) :
    Denotes (.list xs) (.array elements)
  | dict {items order : List (List CodePoint × JsonValue)} {members : List (List CodePoint × Json)}
    (h : Enumerates items order) (hkeys : order.map Prod.fst = members.map Prod.fst)
    (hvalues : List.Forall₂ Denotes (order.map Prod.snd) (members.map Prod.snd)) :
    Denotes (.dict items) (.object members)

section

variable {onNumber : Number → Prop} {onString : List CodePoint → Prop}

theorem allElements_iff (xs : List JsonValue) :
    AllElements onNumber onString xs ↔ ∀ x ∈ xs, x.All onNumber onString := by
  induction xs with
  | nil => simp [AllElements]
  | cons x xs ih => simp [AllElements, ih]

theorem allItems_iff (items : List (List CodePoint × JsonValue)) :
    AllItems onNumber onString items ↔ ∀ item ∈ items, onString item.1 ∧ item.2.All onNumber onString := by
  induction items with
  | nil => simp [AllItems]
  | cons item items ih => simp [AllItems, ih, and_assoc]

end

theorem stringifyElements_eq (xs : List JsonValue) : stringifyElements xs = xs.map jsJsonStringify := by
  induction xs with
  | nil => rfl
  | cons x xs ih => rw [stringifyElements, ih, List.map_cons]

theorem stringifyItems_eq (items : List (List CodePoint × JsonValue)) :
    stringifyItems items = items.map fun item => (item.1, jsJsonStringify item.2) := by
  induction items with
  | nil => rfl
  | cons item items ih => rw [stringifyItems, ih, List.map_cons]

/-- What is to be shown of the text of a value. -/
def Restores (v : JsonValue) : Prop := ∃ j, Reads (jsJsonStringify v) j ∧ Denotes v j

/-- Elements that are restored one by one. -/
theorem exists_elements {xs : List JsonValue} (h : ∀ x ∈ xs, Restores x) :
    ∃ elements, List.Forall₂ Reads (xs.map jsJsonStringify) elements ∧ List.Forall₂ Denotes xs elements := by
  induction xs with
  | nil => exact ⟨[], .nil, .nil⟩
  | cons x xs ih =>
    obtain ⟨j, hreads, hdenotes⟩ := h x List.mem_cons_self
    obtain ⟨elements, hreadsAll, hdenotesAll⟩ := ih fun y hy => h y (List.mem_cons_of_mem _ hy)
    exact ⟨j :: elements, .cons hreads hreadsAll, .cons hdenotes hdenotesAll⟩

theorem restores_list {xs : List JsonValue} (h : ∀ x ∈ xs, Restores x) : Restores (.list xs) := by
  obtain ⟨elements, hreads, hdenotes⟩ := exists_elements h
  refine ⟨.array elements, ?_, .list hdenotes⟩
  rw [jsJsonStringify, stringifyElements_eq]
  exact Rfc8259.reads_array hreads

/-- Items that are restored one by one, in any order. -/
theorem exists_members {order : List (List CodePoint × JsonValue)} (hkeys : ∀ item ∈ order, JsJson.Unpaired item.1)
    (h : ∀ item ∈ order, Restores item.2) :
    ∃ members, List.Forall₂ ReadsMember (order.map fun item => (item.1.flatMap charText, jsJsonStringify item.2))
      members ∧
      order.map Prod.fst = members.map Prod.fst ∧ List.Forall₂ Denotes (order.map Prod.snd) (members.map Prod.snd) := by
  induction order with
  | nil => exact ⟨[], .nil, rfl, .nil⟩
  | cons item order ih =>
    obtain ⟨j, hreads, hdenotes⟩ := h item List.mem_cons_self
    obtain ⟨members, hreadsAll, hnames, hdenotesAll⟩ :=
      ih (fun other hother => hkeys other (List.mem_cons_of_mem _ hother))
      fun other hother => h other (List.mem_cons_of_mem _ hother)
    have hname := readsString_flatMap (hkeys item List.mem_cons_self)
    exact ⟨(item.1, j) :: members, .cons ⟨hname, hreads⟩ hreadsAll, by rw [List.map_cons, hnames, List.map_cons],
      .cons hdenotes hdenotesAll⟩

theorem restores_dict {items : List (List CodePoint × JsonValue)} (hkeys : ∀ item ∈ items, JsJson.Unpaired item.1)
    (h : ∀ item ∈ items, Restores item.2) : Restores (.dict items) := by
  have henumerates := enumerates_jsPropertyOrder items
  obtain ⟨members, hreads, hnames, hdenotes⟩ :=
    exists_members (fun item hitem => hkeys item (henumerates.perm.subset hitem))
    fun item hitem => h item (henumerates.perm.subset hitem)
  refine ⟨.object members, ?_, .dict henumerates hnames hdenotes⟩
  have htexts : (jsPropertyOrder (stringifyItems items)).map (fun item => jsJsonString item.1 ++ ':' :: item.2) =
      ((jsPropertyOrder items).map fun item => (item.1.flatMap charText, jsJsonStringify item.2)).map
        Rfc8259.memberText := by
    rw [stringifyItems_eq, jsPropertyOrder_map, List.map_map, List.map_map]
    refine List.map_congr_left fun item _ => ?_
    simp [jsJsonString, Rfc8259.memberText]
  rw [jsJsonStringify, htexts]
  exact Rfc8259.reads_object hreads

mutual

/-- The text of a value is read as the value. -/
theorem restores (v : JsonValue) (hfinite : v.Finite) (hunpaired : v.Unpaired) : Restores v := by
  match v with
  | .none => exact ⟨.null, by rw [jsJsonStringify]; exact Rfc8259.reads_null, .none⟩
  | .bool true => exact ⟨.bool true, by rw [jsJsonStringify]; exact Rfc8259.reads_true, .bool true⟩
  | .bool false => exact ⟨.bool false, by rw [jsJsonStringify]; exact Rfc8259.reads_false, .bool false⟩
  | .number x =>
    have hx : x ≠ .nonFinite := by simpa [JsonValue.Finite, JsonValue.All] using hfinite
    exact ⟨.number x.value, by rw [jsJsonStringify]; exact reads_jsNumberText hx, .number x⟩
  | .str s =>
    have hs : JsJson.Unpaired s := by simpa [JsonValue.Unpaired, JsonValue.All] using hunpaired
    exact ⟨.string s, by rw [jsJsonStringify]; exact reads_jsJsonString hs, .str s⟩
  | .list xs =>
    rw [JsonValue.Finite, JsonValue.All, allElements_iff] at hfinite
    rw [JsonValue.Unpaired, JsonValue.All, allElements_iff] at hunpaired
    exact restores_list (restores_elements xs hfinite hunpaired)
  | .dict items =>
    rw [JsonValue.Finite, JsonValue.All, allItems_iff] at hfinite
    rw [JsonValue.Unpaired, JsonValue.All, allItems_iff] at hunpaired
    exact restores_dict (fun item hitem => (hunpaired item hitem).1) (restores_items items
      (fun item hitem => (hfinite item hitem).2) fun item hitem => (hunpaired item hitem).2)

theorem restores_elements (xs : List JsonValue) (hfinite : ∀ x ∈ xs, x.Finite) (hunpaired : ∀ x ∈ xs, x.Unpaired) :
    ∀ x ∈ xs, Restores x := by
  match xs with
  | [] => simp
  | y :: ys =>
    intro x hx
    cases List.mem_cons.mp hx with
    | inl heq => exact heq ▸ restores y (hfinite y List.mem_cons_self) (hunpaired y List.mem_cons_self)
    | inr hmem =>
      exact restores_elements ys (fun z hz => hfinite z (List.mem_cons_of_mem _ hz))
        (fun z hz => hunpaired z (List.mem_cons_of_mem _ hz)) x hmem

theorem restores_items (items : List (List CodePoint × JsonValue)) (hfinite : ∀ item ∈ items, item.2.Finite)
    (hunpaired : ∀ item ∈ items, item.2.Unpaired) : ∀ item ∈ items, Restores item.2 := by
  match items with
  | [] => simp
  | (key, value) :: others =>
    intro item hitem
    cases List.mem_cons.mp hitem with
    | inl heq =>
      rw [heq]
      exact restores value (hfinite (key, value) List.mem_cons_self) (hunpaired (key, value) List.mem_cons_self)
    | inr hmem =>
      exact restores_items others (fun other hother => hfinite other (List.mem_cons_of_mem _ hother))
        (fun other hother => hunpaired other (List.mem_cons_of_mem _ hother)) item hmem

end

/-- The text of a value without NaN, infinities and pairs of surrogates is JSON
that is read as the value, and its numbers are in ECMAScript's notation. -/
theorem stringify_exact {v : JsonValue} (hfinite : v.Finite) (hunpaired : v.Unpaired) :
    (∃ j, Rfc8259.parse (jsJsonStringify v) = some j ∧ Denotes v j) ∧
      ∀ negative magnitude, ∃ s n, shortestDigitsAndExponent magnitude = (s, n) ∧
        jsNumberText (.finite negative magnitude) = (if negative then ['-'] else []) ++ Ecma.toText s n ∧
        (Nat.ofDigitChars 10 s 0 : ℚ) * 10 ^ (n - s.length) = magnitude.value := by
  obtain ⟨j, hreads, hdenotes⟩ := restores v hfinite hunpaired
  refine ⟨⟨j, hreads.parse_eq, hdenotes⟩, fun negative magnitude => ?_⟩
  obtain ⟨-, -, -, hvalue⟩ := shortestDigits_spec magnitude
  exact ⟨_, _, rfl, jsFiniteToString_eq negative magnitude, hvalue⟩

/-- An object with keys out of order, a lone surrogate, and a number whose last digit is a zero. -/
def sample : JsonValue :=
  .dict [([0x78], .str [0xD800, 0x22, 0x1F600]), ([0x32], .number (.finite true ⟨[1, 2, 0], -1, by decide, by decide⟩)),
    ([0x31], .list [.none, .bool true])]

theorem stringify_exact_sample :
    (∃ j, Rfc8259.parse (jsJsonStringify sample) = some j ∧ Denotes sample j) ∧
      ∀ negative magnitude, ∃ s n, shortestDigitsAndExponent magnitude = (s, n) ∧
        jsNumberText (.finite negative magnitude) = (if negative then ['-'] else []) ++ Ecma.toText s n ∧
        (Nat.ofDigitChars 10 s 0 : ℚ) * 10 ^ (n - s.length) = magnitude.value := by
  have hfinite : sample.Finite := by simp [sample, JsonValue.Finite, JsonValue.All, AllItems, AllElements]
  have hunpaired : sample.Unpaired := by
    simp only [sample, JsonValue.Unpaired, JsonValue.All, AllItems, AllElements, and_true, true_and]
    decide
  exact stringify_exact hfinite hunpaired

/-- Two code points that make a surrogate pair are read as one. -/
theorem stringify_pair :
    ¬ ∃ j, Rfc8259.parse (jsJsonStringify (.str [0xD83D, 0xDE00])) = some j ∧ Denotes (.str [0xD83D, 0xDE00]) j := by
  have hparse : Rfc8259.parse (jsJsonStringify (.str [0xD83D, 0xDE00])) = some (.string [0x1F600]) := by rfl
  rintro ⟨j, hj, hdenotes⟩
  rw [hparse, Option.some.injEq] at hj
  subst hj
  have hlength : ∀ {s t : List CodePoint}, Denotes (.str s) (.string t) → s = t := fun h => by cases h; rfl
  exact absurd (hlength hdenotes) (by decide)

end MinionAgent.JsJson
