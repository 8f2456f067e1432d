import MinionAgent.Library.JsonGrammar

/-!
# MinionAgent.Auth.JsJson

`js_json_stringify` (`auth/js_json.py`): the text of a JSON value as ECMAScript's
`JSON.stringify` writes it.

A float is what `Decimal(repr(x)).as_tuple()` says of it.  A text is a list of
characters, which are no surrogates; the strings of a value are code points.
-/

namespace MinionAgent.JsJson

open Rfc8259 (CodePoint)
open Py.Json (backslash quoteMark hex4)

/-! ## Values -/

/-- `Decimal(repr(magnitude)).as_tuple()` of a positive float. -/
structure DecimalTuple where
  digits : List (Fin 10)
  exponent : ℤ
  ne_nil : digits ≠ []
  leading : digits.head? ≠ some 0

/-- A number by its float; positive and negative zero are equal. -/
inductive Number
  | zero
  | finite (negative : Bool) (magnitude : DecimalTuple)
  | nonFinite

/-- `JsonValue`; a dict is its items in insertion order. -/
inductive JsonValue
  | none
  | bool (b : Bool)
  | number (x : Number)
  | str (s : List CodePoint)
  | list (xs : List JsonValue)
  | dict (items : List (List CodePoint × JsonValue))

/-! ## Strings -/

/-- `_NAMED_ESCAPES`. -/
def NAMED_ESCAPES : List (Nat × List Char) :=
  [(0x08, [backslash, 'b']), (0x09, [backslash, 't']), (0x0A, [backslash, 'n']), (0x0C, [backslash, 'f']),
    (0x0D, [backslash, 'r']), (0x22, [backslash, quoteMark]), (0x5C, [backslash, backslash])]

/-- `_escape_char`; what is escaped has four hexadecimal digits at most. -/
def escapeChar (codepoint : CodePoint) : List Char :=
  match NAMED_ESCAPES.lookup codepoint.val with
  | some text => text
  | Option.none => backslash :: 'u' :: hex4 codepoint.val

def needsEscape (codepoint : CodePoint) : Bool :=
  codepoint.val < 0x20 || codepoint.val == 0x22 || codepoint.val == 0x5C ||
    (0xD800 ≤ codepoint.val && codepoint.val ≤ 0xDFFF)

theorem isValidChar_of_not_needsEscape {codepoint : CodePoint} (h : ¬ needsEscape codepoint = true) :
    codepoint.val.isValidChar := by
  have hlt := codepoint.isLt
  simp only [needsEscape, Bool.or_eq_true, Bool.and_eq_true, decide_eq_true_eq, beq_iff_eq, not_or, not_and] at h
  simp only [Nat.isValidChar]
  omega

/-- The character of a code point that is not escaped. -/
def literalChar (codepoint : CodePoint) (h : ¬ needsEscape codepoint = true) : Char :=
  Char.ofNatAux codepoint.val (isValidChar_of_not_needsEscape h)

/-- What a character of a string is written as. -/
def charText (codepoint : CodePoint) : List Char :=
  if h : needsEscape codepoint = true then escapeChar codepoint else [literalChar codepoint h]

/-- `_js_json_string`. -/
def jsJsonString (value : List CodePoint) : List Char := quoteMark :: value.flatMap charText ++ [quoteMark]

/-! ## Numbers -/

/-- The loop of `_shortest_digits_and_exponent`, with the last digit first. -/
def popZeros : List (Fin 10) → ℤ → List (Fin 10) × ℤ
  | 0 :: d :: digits, exponent => popZeros (d :: digits) (exponent + 1)
  | digits, exponent => (digits, exponent)

/-- `str(d)`. -/
def digitText (d : Fin 10) : Char := d.val.digitChar

/-- `_shortest_digits_and_exponent`. -/
def shortestDigitsAndExponent (magnitude : DecimalTuple) : List Char × ℤ :=
  let (digits, exponent) := popZeros magnitude.digits.reverse magnitude.exponent
  let s := digits.reverse.map digitText
  (s, exponent + s.length)

/-- `_format_fixed_or_exponential`. -/
def formatFixedOrExponential (s : List Char) (n : ℤ) : List Char := Ecma.caseText s n

/-- `_js_number_to_string` of a number other than zero. -/
def jsFiniteToString (negative : Bool) (magnitude : DecimalTuple) : List Char :=
  let sign := if negative then ['-'] else []
  let (s, n) := shortestDigitsAndExponent magnitude
  sign ++ formatFixedOrExponential s n

/-- `_js_number_to_string`, and `null` for what is not finite. -/
def jsNumberText : Number → List Char
  | .zero => ['0']
  | .finite negative magnitude => jsFiniteToString negative magnitude
  | .nonFinite => "null".toList

/-! ## Objects -/

def MAX_ARRAY_INDEX : Nat := 2 ^ 32 - 2
def MAX_ARRAY_INDEX_DIGITS : Nat := 10

def isAsciiDigit (c : CodePoint) : Bool := 0x30 ≤ c.val && c.val ≤ 0x39

/-- `int(key)` of ASCII digits. -/
def keyInt (key : List CodePoint) : Nat := key.foldl (fun acc c => acc * 10 + (c.val - 0x30)) 0

/-- `_is_array_index`. -/
def isArrayIndex (key : List CodePoint) : Bool :=
  if key = [] || !key.all isAsciiDigit then false
  else if key ≠ [0x30] && key.head? = some 0x30 then false
  else if MAX_ARRAY_INDEX_DIGITS < key.length then false
  else keyInt key ≤ MAX_ARRAY_INDEX

section

variable {α : Type}

/-- The order of `sorted(..., key=int)`. -/
def byKeyInt (x y : List CodePoint × α) : Prop := keyInt x.1 ≤ keyInt y.1

instance : DecidableRel (byKeyInt (α := α)) := fun x y => inferInstanceAs (Decidable (keyInt x.1 ≤ keyInt y.1))

/-- `_js_property_order`: the items in the order of their keys. -/
def jsPropertyOrder (obj : List (List CodePoint × α)) : List (List CodePoint × α) :=
  let arrayIndexItems := (obj.filter fun item => isArrayIndex item.1).insertionSort byKeyInt
  let otherItems := obj.filter fun item => !isArrayIndex item.1
  arrayIndexItems ++ otherItems

end

/-! ## The renderer -/

mutual

/-- `js_json_stringify`. -/
def jsJsonStringify : JsonValue → List Char
  | .none => "null".toList
  | .bool true => "true".toList
  | .bool false => "false".toList
  | .str s => jsJsonString s
  | .number x => jsNumberText x
  | .list xs => '[' :: [','].intercalate (stringifyElements xs) ++ [']']
  | .dict items =>
    '\x7b' :: [','].intercalate ((jsPropertyOrder (stringifyItems items)).map fun item =>
      jsJsonString item.1 ++ ':' :: item.2) ++ ['\x7d']

/-- The texts of the elements. -/
def stringifyElements : List JsonValue → List (List Char)
  | [] => []
  | x :: xs => jsJsonStringify x :: stringifyElements xs

/-- The keys, and the texts of the values. -/
def stringifyItems : List (List CodePoint × JsonValue) → List (List CodePoint × List Char)
  | [] => []
  | (key, value) :: items => (key, jsJsonStringify value) :: stringifyItems items

end

end MinionAgent.JsJson
