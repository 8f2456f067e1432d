import MinionAgent.Library.EcmaNumber
import MinionAgent.Library.JsonRoundTrip
import Mathlib.Data.Rat.Defs
import Mathlib.Tactic.FieldSimp
import Mathlib.Tactic.NormNum
import Mathlib.Tactic.Ring

/-!
# MinionAgent.Library.JsonGrammar

JSON texts as RFC 8259 reads them: numbers are rationals, strings are code
points in which escaped surrogates may stay alone, and objects are their members
in order.

* `parse` — the value of a text, by fuel, which the length of the text bounds;
* `NumberText` — a number by its parts;
* `Reads` — a text that is read as a value wherever one may stand, with the
  rules that compose such texts.
-/

namespace Rfc8259

open Py
open Py.Json (CodeUnit scanUnits skipSpace isSpace isHigh isLow combine quoteMark Stops StartsValue)

/-! ## Values -/

abbrev CodePoint := Fin 0x110000

instance neZero_codePoints : NeZero 0x110000 := ⟨by decide⟩

/-- A JSON value. -/
inductive Json
  | null
  | bool (b : Bool)
  | number (q : ℚ)
  | string (s : List CodePoint)
  | array (elements : List Json)
  | object (members : List (List CodePoint × Json))

/-! ## Strings -/

def codePoint (n : Nat) : CodePoint := Fin.ofNat 0x110000 n

/-- Escaped surrogates next to each other are one code point; alone they stay. -/
def joinPairs : List CodeUnit → List CodePoint
  | [] => []
  | .char c :: units => codePoint c.toNat :: joinPairs units
  | .escaped high :: .escaped low :: units =>
    if isHigh high && isLow low then codePoint (combine high low) :: joinPairs units
    else codePoint high :: joinPairs (.escaped low :: units)
  | .escaped unit :: units => codePoint unit :: joinPairs units

/-- A string literal after its opening quote. -/
def scanString (cs : List Char) : Option (List CodePoint × List Char) :=
  (scanUnits cs).map fun (units, rest) => (joinPairs units, rest)

/-! ## Numbers -/

/-- An exponent part. -/
def exponentValue : List Char → ℤ
  | [] => 0
  | _ :: '-' :: ds => -(Nat.ofDigitChars 10 ds 0 : ℤ)
  | _ :: '+' :: ds => Nat.ofDigitChars 10 ds 0
  | _ :: ds => Nat.ofDigitChars 10 ds 0

/-- What a number denotes, by its digits, the places behind the point and the exponent. -/
def denotes (negative : Bool) (int frac : List Char) (exponent : ℤ) : ℚ :=
  (if negative then -1 else 1) * Nat.ofDigitChars 10 (int ++ frac) 0 * 10 ^ (exponent - frac.length)

/-- The value of a number token. -/
def numberValue (token : List Char) : ℚ :=
  let sign := if token.head? = some '-' then ['-'] else []
  let int := intPart (token.drop sign.length)
  let frac := fracPart (token.drop (sign ++ int).length)
  let exp := expPart (token.drop (sign ++ int ++ frac).length)
  denotes (token.head? = some '-') int (frac.drop 1) (exponentValue exp)

/-! ## Texts -/

/-- A literal or a number at the front of a text. -/
def scalar? (cs : List Char) : Option (Json × List Char) :=
  if ['n', 'u', 'l', 'l'].isPrefixOf cs then some (.null, cs.drop 4)
  else if ['t', 'r', 'u', 'e'].isPrefixOf cs then some (.bool true, cs.drop 4)
  else if ['f', 'a', 'l', 's', 'e'].isPrefixOf cs then some (.bool false, cs.drop 5)
  else (numberToken cs).map fun (token, _) => (.number (numberValue token), cs.drop token.length)

mutual

/-- The value at the front of a text, and what follows it. -/
def parseValue : Nat → List Char → Option (Json × List Char)
  | 0, _ => none
  | _, [] => none
  | fuel + 1, c :: cs =>
    if c = quoteMark then
      (scanString cs).map fun (s, rest) => (.string s, rest)
    else if c = '[' then
      match skipSpace cs with
      | ']' :: rest => some (.array [], rest)
      | cs => (parseElements fuel cs).map fun (elements, rest) => (.array elements, rest)
    else if c = '\x7b' then
      match skipSpace cs with
      | '\x7d' :: rest => some (.object [], rest)
      | cs => (parseMembers fuel cs).map fun (members, rest) => (.object members, rest)
    else
      scalar? (c :: cs)

/-- The elements of an array, up to its bracket. -/
def parseElements : Nat → List Char → Option (List Json × List Char)
  | 0, _ => none
  | fuel + 1, cs => do
    let (element, rest) ← parseValue fuel cs
    match skipSpace rest with
    | ']' :: rest => return ([element], rest)
    | ',' :: rest => do
      let (elements, rest) ← parseElements fuel (skipSpace rest)
      return (element :: elements, rest)
    | _ => none

/-- The members of an object, up to its brace. -/
def parseMembers : Nat → List Char → Option (List (List CodePoint × Json) × List Char)
  | 0, _ => none
  | _, [] => none
  | fuel + 1, c :: cs =>
    if c = quoteMark then do
      let (name, rest) ← scanString cs
      match skipSpace rest with
      | ':' :: rest => do
        let (value, rest) ← parseValue fuel (skipSpace rest)
        match skipSpace rest with
        | '\x7d' :: rest => return ([(name, value)], rest)
        | ',' :: rest => do
          let (members, rest) ← parseMembers fuel (skipSpace rest)
          return ((name, value) :: members, rest)
        | _ => none
      | _ => none
    else
      none

end

/-- The value of a JSON text. -/
def parse (text : List Char) : Option Json := do
  let (value, rest) ← parseValue (text.length + 1) (skipSpace text)
  if skipSpace rest = [] then some value else none

/-! ## Numbers by their parts -/

/-- Digits, and at least one. -/
def Digits (ds : List Char) : Prop := ds ≠ [] ∧ ∀ c ∈ ds, c.isDigit = true

/-- The parts of a number: the digits before and behind the point, and the
exponent with its sign. -/
structure NumberText where
  negative : Bool
  int : List Char
  frac : List Char
  exponent : Option (Bool × List Char)
  int_digits : Digits int
  int_leading : int = ['0'] ∨ int.head? ≠ some '0'
  frac_digits : ∀ c ∈ frac, c.isDigit = true
  exponent_digits : ∀ e ∈ exponent, Digits e.2

namespace NumberText

def signText (negative : Bool) : List Char := if negative then ['-'] else []

def fracText (frac : List Char) : List Char := if frac = [] then [] else '.' :: frac

def exponentText : Option (Bool × List Char) → List Char
  | none => []
  | some (negative, ds) => 'e' :: (if negative then '-' else '+') :: ds

def text (n : NumberText) : List Char := signText n.negative ++ n.int ++ fracText n.frac ++ exponentText n.exponent

/-- The exponent as an integer. -/
def exponentInt : Option (Bool × List Char) → ℤ
  | none => 0
  | some (negative, ds) => (if negative then -1 else 1) * Nat.ofDigitChars 10 ds 0

/-- The number. -/
def value (n : NumberText) : ℚ := denotes n.negative n.int n.frac (exponentInt n.exponent)

/-- A text that does not start with a digit. -/
def NoDigit (cs : List Char) : Prop := ∀ c ∈ cs.head?, c.isDigit = false

theorem noDigit_exponentText (e : Option (Bool × List Char)) : NoDigit (exponentText e) := by
  cases e with
  | none => simp [exponentText, NoDigit]
  | some e =>
    simp only [exponentText, NoDigit, List.head?_cons, Option.mem_some_iff, forall_eq']
    decide

theorem noDigit_fracText (frac : List Char) (e : Option (Bool × List Char)) :
    NoDigit (fracText frac ++ exponentText e) := by
  unfold fracText
  split_ifs with hnil
  · exact noDigit_exponentText e
  · simp only [NoDigit, List.cons_append, List.head?_cons, Option.mem_some_iff, forall_eq']
    decide

theorem digits_append_of_noDigit {ds rest : List Char} (h : ∀ c ∈ ds, c.isDigit = true) (hrest : NoDigit rest) :
    digits (ds ++ rest) = ds := by
  have hnone : rest.takeWhile Char.isDigit = [] := by
    cases rest with
    | nil => rfl
    | cons c rest => simp [hrest c (by simp)]
  rw [digits, List.takeWhile_append_of_pos h, hnone, List.append_nil]

theorem intPart_append_of_noDigit {int rest : List Char} (hint : Digits int)
    (hleading : int = ['0'] ∨ int.head? ≠ some '0') (hrest : NoDigit rest) : intPart (int ++ rest) = int := by
  rcases hleading with rfl | hne
  · rfl
  · rw [intPart.eq_def]
    split
    · next cs heq =>
      cases int with
      | nil => exact absurd rfl hint.1
      | cons c int => exact absurd (by rw [(List.cons.inj heq).1]; rfl) hne
    · exact digits_append_of_noDigit hint.2 hrest

theorem fracPart_append_of_noDigit {frac : List Char} (hfrac : ∀ c ∈ frac, c.isDigit = true)
    (e : Option (Bool × List Char)) : fracPart (fracText frac ++ exponentText e) = fracText frac := by
  unfold fracText
  split_ifs with hnil
  · cases e with
    | none => rfl
    | some e => rfl
  · simp only [List.cons_append, fracPart, digits_append_of_noDigit hfrac (noDigit_exponentText e), if_neg hnil]

theorem expPart_exponentText {e : Option (Bool × List Char)} (h : ∀ e' ∈ e, Digits e'.2) :
    expPart (exponentText e) = exponentText e := by
  cases e with
  | none => rfl
  | some e =>
    obtain ⟨negative, ds⟩ := e
    obtain ⟨hne, hdigits⟩ := h _ rfl
    have hds : digits ds = ds := List.takeWhile_eq_self_iff.mpr hdigits
    have hsign : ((if negative then '-' else '+') = '+' || (if negative then '-' else '+') = '-') = true := by
      cases negative <;> decide
    simp only [exponentText, expPart, hsign, hds, if_neg hne]
    rfl

theorem exponentValue_exponentText (e : Option (Bool × List Char)) :
    exponentValue (exponentText e) = exponentInt e := by
  match e with
  | none => rfl
  | some (true, ds) => simp [exponentText, exponentValue, exponentInt]
  | some (false, ds) => simp [exponentText, exponentValue, exponentInt]

theorem drop_one_fracText (frac : List Char) : (fracText frac).drop 1 = frac := by
  unfold fracText
  split_ifs with hnil
  · simp [hnil]
  · rfl

theorem head?_text (n : NumberText) : n.text.head? = some '-' ↔ n.negative = true := by
  obtain ⟨c, rest, hint⟩ := List.exists_cons_of_ne_nil n.int_digits.1
  have hdigit := n.int_digits.2 c (by simp [hint])
  unfold text
  rw [hint]
  cases n.negative with
  | true => simp [signText]
  | false =>
    simp only [signText, Bool.false_eq_true, if_false, List.nil_append, List.cons_append, List.head?_cons,
      Option.some.injEq, iff_false]
    rintro rfl
    exact absurd hdigit (by decide)

/-- The parts of a text, as they are scanned one after the other. -/
theorem parts_text (n : NumberText) :
    (if n.text.head? = some '-' then ['-'] else []) = signText n.negative ∧
      intPart (n.text.drop (signText n.negative).length) = n.int ∧
      fracPart (n.text.drop (signText n.negative ++ n.int).length) = fracText n.frac ∧
      expPart (n.text.drop (signText n.negative ++ n.int ++ fracText n.frac).length) = exponentText n.exponent := by
  refine ⟨?_, ?_, ?_, ?_⟩
  · simp only [n.head?_text, signText]
  · have hdrop : n.text.drop (signText n.negative).length = n.int ++ (fracText n.frac ++ exponentText n.exponent) := by
      simp [text]
    rw [hdrop, intPart_append_of_noDigit n.int_digits n.int_leading (noDigit_fracText _ _)]
  · have hdrop : n.text.drop (signText n.negative ++ n.int).length = fracText n.frac ++ exponentText n.exponent := by
      rw [text, List.append_assoc]
      exact List.drop_left
    rw [hdrop, fracPart_append_of_noDigit n.frac_digits]
  · have hdrop : n.text.drop (signText n.negative ++ n.int ++ fracText n.frac).length = exponentText n.exponent :=
      List.drop_left
    rw [hdrop, expPart_exponentText n.exponent_digits]

/-- The text is one token. -/
theorem numberToken_text (n : NumberText) : ∃ isFloat, numberToken n.text = some (n.text, isFloat) := by
  obtain ⟨hsign, hint, hfrac, hexponent⟩ := n.parts_text
  refine ⟨!(fracText n.frac).isEmpty || !(exponentText n.exponent).isEmpty, ?_⟩
  simp only [numberToken, hsign, hint, hfrac, hexponent, if_neg n.int_digits.1]
  rfl

/-- It denotes the number. -/
theorem numberValue_text (n : NumberText) : numberValue n.text = n.value := by
  obtain ⟨hsign, hint, hfrac, hexponent⟩ := n.parts_text
  have hnegative : decide (n.text.head? = some '-') = n.negative := by
    rw [Bool.eq_iff_iff, decide_eq_true_eq]
    exact n.head?_text
  simp only [numberValue, hsign, hint, hfrac, hexponent, hnegative, drop_one_fracText, exponentValue_exponentText]
  rfl

/-! ### What ECMAScript writes -/

/-- `±s · 10 ^ (n - k)` for the `k` digits `s`. -/
def decimal (negative : Bool) (ds : List Char) (n : ℤ) : ℚ :=
  (if negative then -1 else 1) * Nat.ofDigitChars 10 ds 0 * 10 ^ (n - ds.length)

section Ecma

variable {ds : List Char} (hds : Digits ds) (hhead : ds.head? ≠ some '0') (negative : Bool) {n : ℤ}
include hds

theorem exists_fixed_zeros (hpos : ¬ 0 < n) :
    ∃ t : NumberText, t.text = signText negative ++ '0' :: '.' :: (List.replicate (-n).toNat '0' ++ ds) ∧
      t.value = decimal negative ds n := by
  refine ⟨{ negative, int := ['0'], frac := List.replicate (-n).toNat '0' ++ ds, exponent := none
            int_digits := ⟨by simp, by simp⟩, int_leading := Or.inl rfl, frac_digits := ?_, exponent_digits := ?_ },
    ?_, ?_⟩
  · intro c hc
    cases List.mem_append.mp hc with
    | inl hmem =>
      rw [List.eq_of_mem_replicate hmem]
      decide
    | inr hmem => exact hds.2 c hmem
  · simp
  · simp [text, fracText, exponentText, hds.1]
  · have hexponent : (0 : ℤ) - (List.replicate (-n).toNat '0' ++ ds).length = n - ds.length := by
      rw [List.length_append, List.length_replicate]
      omega
    have hdigits : Nat.ofDigitChars 10 (['0'] ++ (List.replicate (-n).toNat '0' ++ ds)) 0 =
        Nat.ofDigitChars 10 ds 0 := by
      have hzero : Nat.ofDigitChars 10 ['0'] 0 = 0 := by decide
      rw [Nat.ofDigitChars_append, hzero, Nat.ofDigitChars_append, Nat.ofDigitChars_replicate_zero, Nat.mul_zero]
    simp only [value, denotes, decimal, exponentInt, hexponent, hdigits]

include hhead

theorem exists_fixed_whole (hwhole : ds.length ≤ n) :
    ∃ t : NumberText, t.text = signText negative ++ (ds ++ List.replicate (n - ds.length).toNat '0') ∧
      t.value = decimal negative ds n := by
  have hint : Digits (ds ++ List.replicate (n - ds.length).toNat '0') := by
    refine ⟨by simp [hds.1], fun c hc => ?_⟩
    cases List.mem_append.mp hc with
    | inl hmem => exact hds.2 c hmem
    | inr hmem =>
      rw [List.eq_of_mem_replicate hmem]
      decide
  refine ⟨{ negative, int := ds ++ List.replicate (n - ds.length).toNat '0', frac := [], exponent := none
            int_digits := hint, int_leading := Or.inr ?_, frac_digits := ?_, exponent_digits := ?_ }, ?_, ?_⟩
  · rwa [List.head?_append_of_ne_nil _ hds.1]
  · simp
  · simp
  · simp [text, fracText, exponentText]
  · have hpow : ((10 : ℚ) ^ (n - ds.length).toNat) = 10 ^ (n - ds.length) := by
      rw [← zpow_natCast, Int.toNat_of_nonneg (by omega)]
    simp only [value, denotes, decimal, exponentInt, List.append_nil, List.length_nil, Nat.ofDigitChars_append,
      Nat.ofDigitChars_replicate_zero]
    push_cast
    rw [hpow]
    ring

theorem exists_fixed_point (hpos : 0 < n) (hpoint : ¬ ds.length ≤ n) :
    ∃ t : NumberText, t.text = signText negative ++ (ds.take n.toNat ++ '.' :: ds.drop n.toNat) ∧
      t.value = decimal negative ds n := by
  have hfrac : ds.drop n.toNat ≠ [] := by
    rw [ne_eq, List.drop_eq_nil_iff]
    omega
  have hint : ds.take n.toNat ≠ [] := by
    rw [ne_eq, List.take_eq_nil_iff, not_or]
    exact ⟨by omega, hds.1⟩
  refine ⟨{ negative, int := ds.take n.toNat, frac := ds.drop n.toNat, exponent := none
            int_digits := ⟨hint, fun c hc => hds.2 c (List.mem_of_mem_take hc)⟩, int_leading := Or.inr ?_
            frac_digits := fun c hc => hds.2 c (List.mem_of_mem_drop hc), exponent_digits := ?_ }, ?_, ?_⟩
  · rwa [List.head?_take, if_neg (by omega)]
  · simp
  · simp [text, fracText, exponentText, hfrac]
  · have hexponent : (0 : ℤ) - (ds.drop n.toNat).length = n - ds.length := by
      rw [List.length_drop]
      omega
    simp only [value, denotes, decimal, exponentInt, List.take_append_drop, hexponent]

theorem exists_exponential (n : ℤ) :
    ∃ t : NumberText, t.text = signText negative ++ Ecma.exponentialNotation ds n ∧
      t.value = decimal negative ds n := by
  obtain ⟨first, rest, rfl⟩ := List.exists_cons_of_ne_nil hds.1
  have hfirst : first ≠ '0' := by simpa using hhead
  refine ⟨{ negative, int := [first], frac := rest, exponent := some (decide (n - 1 < 0), Ecma.natText (n - 1).natAbs)
            int_digits := ⟨by simp, fun c hc => hds.2 c (by simp [List.mem_singleton.mp hc])⟩
            int_leading := Or.inr (by simpa using hfirst)
            frac_digits := fun c hc => hds.2 c (List.mem_cons_of_mem _ hc), exponent_digits := ?_ }, ?_, ?_⟩
  · intro e he
    cases he
    exact ⟨Nat.toDigits_ne_nil, fun c hc => Nat.isDigit_of_mem_toDigits (by omega) (by omega) hc⟩
  · have hsign : (if n < 1 then '-' else '+') = if 1 ≤ n then '+' else '-' := by
      by_cases hneg : n < 1
      · rw [if_pos hneg, if_neg (by omega)]
      · rw [if_neg hneg, if_pos (by omega)]
    cases rest with
    | nil => simp [text, fracText, exponentText, hsign, Ecma.exponentialNotation, Ecma.exponentText]
    | cons second rest => simp [text, fracText, exponentText, hsign, Ecma.exponentialNotation, Ecma.exponentText]
  · have hexponent : exponentInt (some (decide (n - 1 < 0), Ecma.natText (n - 1).natAbs)) = n - 1 := by
      simp only [exponentInt, Ecma.natText, Nat.ofDigitChars_ten_toDigits, decide_eq_true_eq]
      split_ifs <;> omega
    have hplaces : n - 1 - (rest.length : ℤ) = n - (first :: rest).length := by
      rw [List.length_cons]
      push_cast
      omega
    simp only [value, denotes, decimal, hexponent, List.singleton_append, hplaces]

/-- What ECMAScript writes is a number, and the number is exactly what the digits and the exponent denote. -/
theorem exists_toText (n : ℤ) :
    ∃ t : NumberText, t.text = signText negative ++ Ecma.toText ds n ∧ t.value = decimal negative ds n := by
  unfold Ecma.toText Ecma.fixedNotation
  split_ifs with hfixed hwhole hpos
  · exact exists_fixed_whole hds hhead negative hwhole
  · exact exists_fixed_point hds hhead negative hpos hwhole
  · exact exists_fixed_zeros hds negative hpos
  · exact exists_exponential hds hhead negative n

end Ecma

end NumberText

/-! ## Texts that are read -/

/-- A text that is read as a value, in front of what may follow one. -/
structure Reads (text : List Char) (value : Json) : Prop where
  starts : StartsValue text
  parse : ∀ {fuel : Nat} {rest : List Char}, text.length ≤ fuel → Stops rest →
    parseValue fuel (text ++ rest) = some (value, rest)

/-- The inside of a string literal. -/
def ReadsString (body : List Char) (s : List CodePoint) : Prop :=
  ∀ rest, scanString (body ++ quoteMark :: rest) = some (s, rest)

/-- A text is read with some fuel, as it is not empty. -/
theorem exists_fuel {text : List Char} (h : StartsValue text) {fuel : Nat} (hfuel : text.length ≤ fuel) :
    ∃ more, fuel = more + 1 := by
  obtain ⟨c, cs, rfl, -⟩ := h
  rw [List.length_cons] at hfuel
  exact ⟨fuel - 1, by omega⟩

/-- What starts a value is not skipped. -/
theorem skipSpace_append {text : List Char} (h : StartsValue text) (rest : List Char) :
    skipSpace (text ++ rest) = text ++ rest := by
  obtain ⟨c, cs, rfl, hspace, -⟩ := h
  simp [skipSpace, hspace]

theorem startsValue_intercalate {text : List Char} (h : StartsValue text) (texts : List (List Char)) :
    StartsValue ([','].intercalate (text :: texts)) := by
  obtain ⟨c, cs, rfl, hstart⟩ := h
  cases texts with
  | nil => exact ⟨c, cs, List.intercalate_singleton, hstart⟩
  | cons next texts => exact ⟨c, _, List.intercalate_cons_cons, hstart⟩

@[simp] theorem skipSpace_comma (cs : List Char) : skipSpace (',' :: cs) = ',' :: cs := by
  simp [skipSpace, isSpace]

@[simp] theorem skipSpace_colon (cs : List Char) : skipSpace (':' :: cs) = ':' :: cs := by
  simp [skipSpace, isSpace]

theorem reads_null : Reads "null".toList .null where
  starts := ⟨'n', _, rfl, by decide⟩
  parse hfuel _ := by
    obtain ⟨fuel, rfl⟩ := exists_fuel ⟨'n', _, rfl, by decide⟩ hfuel
    simp [parseValue, scalar?, quoteMark]

theorem reads_true : Reads "true".toList (.bool true) where
  starts := ⟨'t', _, rfl, by decide⟩
  parse hfuel _ := by
    obtain ⟨fuel, rfl⟩ := exists_fuel ⟨'t', _, rfl, by decide⟩ hfuel
    simp [parseValue, scalar?, quoteMark]

theorem reads_false : Reads "false".toList (.bool false) where
  starts := ⟨'f', _, rfl, by decide⟩
  parse hfuel _ := by
    obtain ⟨fuel, rfl⟩ := exists_fuel ⟨'f', _, rfl, by decide⟩ hfuel
    simp [parseValue, scalar?, quoteMark]

/-- A number is read as what it denotes. -/
theorem NumberText.reads (n : NumberText) : Reads n.text (.number n.value) := by
  obtain ⟨isFloat, htoken⟩ := n.numberToken_text
  have hstarts := Py.Json.startsValue_of_numberToken htoken
  refine ⟨hstarts, fun {fuel rest} hfuel hrest => ?_⟩
  obtain ⟨more, rfl⟩ := exists_fuel hstarts hfuel
  have happend := (Py.Json.numberToken_append n.text hrest).trans htoken
  have hvalue := n.numberValue_text
  obtain ⟨c, tail, htext, -⟩ := hstarts
  have hhead := htoken
  rw [htext] at hhead
  have hne : c ≠ quoteMark ∧ c ≠ '[' ∧ c ≠ '\x7b' ∧ c ≠ 'n' ∧ c ≠ 't' ∧ c ≠ 'f' := by
    rcases Py.Json.numberToken_head hhead with rfl | hdigit
    · decide
    · refine ⟨?_, ?_, ?_, ?_, ?_, ?_⟩ <;> rintro rfl <;> exact absurd hdigit (by decide)
  obtain ⟨hquote, hbracket, hbrace, hn, ht, hf⟩ := hne
  have hscalar : scalar? (n.text ++ rest) = some (.number n.value, rest) := by
    rw [scalar?, happend, Option.map_some]
    simp only [hvalue, List.drop_left]
    rw [htext]
    simp [List.isPrefixOf, hn.symm, ht.symm, hf.symm]
  rw [htext, List.cons_append] at hscalar ⊢
  rw [parseValue, if_neg hquote, if_neg hbracket, if_neg hbrace, hscalar]

theorem reads_string {body : List Char} {s : List CodePoint} (h : ReadsString body s) :
    Reads (quoteMark :: body ++ [quoteMark]) (.string s) := by
  have hstarts : StartsValue (quoteMark :: body ++ [quoteMark]) := ⟨quoteMark, _, rfl, by decide⟩
  refine ⟨hstarts, fun {fuel rest} hfuel hrest => ?_⟩
  obtain ⟨more, rfl⟩ := exists_fuel hstarts hfuel
  have hscan := h rest
  simp only [List.cons_append, List.append_assoc, List.nil_append]
  rw [parseValue, if_pos rfl, hscan]
  rfl

/-! ### Arrays -/

/-- The elements are read up to the bracket. -/
theorem parseElements_intercalate {text : List Char} {value : Json} {texts : List (List Char)} {values : List Json}
    (h : Reads text value) (hs : List.Forall₂ Reads texts values) {fuel : Nat}
    (hfuel : ([','].intercalate (text :: texts)).length < fuel) (rest : List Char) :
    parseElements fuel ([','].intercalate (text :: texts) ++ ']' :: rest) = some (value :: values, rest) := by
  obtain ⟨more, rfl⟩ : ∃ more, fuel = more + 1 := ⟨fuel - 1, by omega⟩
  induction hs generalizing text value more with
  | nil =>
    rw [List.intercalate_singleton] at hfuel ⊢
    rw [parseElements, h.parse (by omega) (Py.Json.stops_cons (.inr (.inl rfl)) rest)]
    simp [skipSpace, isSpace]
  | @cons next nextValue texts values hnext hs ih =>
    rw [List.intercalate_cons_cons] at hfuel ⊢
    simp only [List.length_append, List.length_singleton] at hfuel
    obtain ⟨fuel, rfl⟩ : ∃ fuel, more = fuel + 1 := ⟨more - 1, by omega⟩
    have htail := ih hnext fuel (show ([','].intercalate (next :: texts)).length < fuel + 1 by omega)
    have hskip := skipSpace_append (startsValue_intercalate hnext.starts texts) (']' :: rest)
    simp only [List.append_assoc, List.cons_append, List.nil_append]
    rw [parseElements, h.parse (by omega) (Py.Json.stops_cons (.inl rfl) _)]
    simp only [Option.bind_eq_bind, Option.bind_some, skipSpace_comma, hskip, htail]
    rfl

theorem reads_array {texts : List (List Char)} {values : List Json} (h : List.Forall₂ Reads texts values) :
    Reads ('[' :: [','].intercalate texts ++ [']']) (.array values) := by
  have hstarts : StartsValue ('[' :: [','].intercalate texts ++ [']']) := ⟨'[', _, rfl, by decide⟩
  refine ⟨hstarts, fun {fuel rest} hfuel hrest => ?_⟩
  obtain ⟨more, rfl⟩ := exists_fuel hstarts hfuel
  simp only [List.cons_append, List.append_assoc, List.nil_append, List.length_cons, List.length_append,
    List.length_nil] at hfuel ⊢
  rw [parseValue, if_neg (by decide), if_pos rfl]
  cases h with
  | nil => simp [skipSpace, isSpace]
  | @cons text value texts values h hs =>
    have helements := parseElements_intercalate h hs (show _ < more by omega) rest
    have hskip := skipSpace_append (startsValue_intercalate h.starts texts) (']' :: rest)
    obtain ⟨c, cs, hjoined, -, hbracket, -⟩ := startsValue_intercalate h.starts texts
    rw [hskip]
    rw [hjoined, List.cons_append] at helements ⊢
    split
    · next heq => exact absurd (List.cons.inj heq).1 hbracket
    · rw [helements]
      rfl

/-! ### Objects -/

/-- A member, by the inside of its name and the text of its value. -/
def memberText (member : List Char × List Char) : List Char :=
  quoteMark :: member.1 ++ quoteMark :: ':' :: member.2

/-- The parts of a member are read. -/
def ReadsMember (member : List Char × List Char) (value : List CodePoint × Json) : Prop :=
  ReadsString member.1 value.1 ∧ Reads member.2 value.2

theorem startsValue_memberText (member : List Char × List Char) : StartsValue (memberText member) :=
  ⟨quoteMark, _, rfl, by decide⟩

/-- The members are read up to the brace. -/
theorem parseMembers_intercalate {member : List Char × List Char} {value : List CodePoint × Json}
    {members : List (List Char × List Char)} {values : List (List CodePoint × Json)} (h : ReadsMember member value)
    (hs : List.Forall₂ ReadsMember members values) {fuel : Nat}
    (hfuel : ([','].intercalate ((member :: members).map memberText)).length < fuel) (rest : List Char) :
    parseMembers fuel ([','].intercalate ((member :: members).map memberText) ++ '\x7d' :: rest) =
      some (value :: values, rest) := by
  obtain ⟨more, rfl⟩ : ∃ more, fuel = more + 1 := ⟨fuel - 1, by omega⟩
  induction hs generalizing member value more with
  | nil =>
    obtain ⟨hname, hvalue⟩ := h
    simp only [List.map_cons, List.map_nil, List.intercalate_singleton, memberText, List.length_cons,
      List.length_append, List.cons_append, List.append_assoc] at hfuel ⊢
    rw [parseMembers, if_pos rfl, hname]
    simp only [Option.bind_eq_bind, Option.bind_some, skipSpace_colon, skipSpace_append hvalue.starts]
    rw [hvalue.parse (by omega) (Py.Json.stops_cons (.inr (.inr rfl)) rest)]
    simp [skipSpace, isSpace]
  | @cons next nextValue members values hnext hs ih =>
    obtain ⟨hname, hvalue⟩ := h
    simp only [List.map_cons, List.intercalate_cons_cons] at hfuel ih ⊢
    simp only [memberText, List.length_cons, List.length_append, List.length_nil] at hfuel
    obtain ⟨fuel, rfl⟩ : ∃ fuel, more = fuel + 1 := ⟨more - 1, by omega⟩
    have hstarts := startsValue_intercalate (startsValue_memberText next) (members.map memberText)
    have htail := ih hnext fuel (by simp only [memberText]; omega)
    have hskip := skipSpace_append hstarts ('\x7d' :: rest)
    rw [show memberText member = quoteMark :: (member.1 ++ quoteMark :: ':' :: member.2) from rfl]
    simp only [List.append_assoc, List.cons_append, List.nil_append]
    rw [parseMembers, if_pos rfl, hname]
    simp only [Option.bind_eq_bind, Option.bind_some, skipSpace_colon, skipSpace_append hvalue.starts]
    rw [hvalue.parse (by omega) (Py.Json.stops_cons (.inl rfl) _)]
    simp only [Option.bind_some, skipSpace_comma, hskip, htail]
    rfl

theorem reads_object {members : List (List Char × List Char)} {values : List (List CodePoint × Json)}
    (h : List.Forall₂ ReadsMember members values) :
    Reads ('\x7b' :: [','].intercalate (members.map memberText) ++ ['\x7d']) (.object values) := by
  have hstarts : StartsValue ('\x7b' :: [','].intercalate (members.map memberText) ++ ['\x7d']) :=
    ⟨'\x7b', _, rfl, by decide⟩
  refine ⟨hstarts, fun {fuel rest} hfuel hrest => ?_⟩
  obtain ⟨more, rfl⟩ := exists_fuel hstarts hfuel
  simp only [List.cons_append, List.append_assoc, List.nil_append, List.length_cons, List.length_append,
    List.length_nil] at hfuel ⊢
  rw [parseValue, if_neg (by decide), if_neg (by decide), if_pos rfl]
  cases h with
  | nil => simp [skipSpace, isSpace]
  | @cons member value members values h hs =>
    have hmembers := parseMembers_intercalate h hs (show _ < more by omega) rest
    have hstarts := startsValue_intercalate (startsValue_memberText member) (members.map memberText)
    have hskip := skipSpace_append hstarts ('\x7d' :: rest)
    obtain ⟨c, cs, hjoined, -, -, hbrace⟩ := hstarts
    rw [List.map_cons] at hmembers ⊢
    rw [hskip]
    rw [hjoined, List.cons_append] at hmembers ⊢
    split
    · next heq => exact absurd (List.cons.inj heq).1 hbrace
    · rw [hmembers]
      rfl

/-- A text that is read is a JSON text of the value. -/
theorem Reads.parse_eq {text : List Char} {value : Json} (h : Reads text value) : Rfc8259.parse text = some value := by
  have hvalue := h.parse (Nat.le_succ text.length) Py.Json.stops_nil
  have hskip := skipSpace_append h.starts []
  rw [List.append_nil] at hvalue hskip
  rw [Rfc8259.parse, hskip, hvalue]
  rfl

end Rfc8259
