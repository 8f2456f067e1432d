import MinionAgent.Library.PyValue
import Mathlib.Data.String.Basic

/-!
# MinionAgent.Library.JsonText

`json.dumps(value, sort_keys=True)` and `json.loads(text)`: ASCII text, the
separators `", "` and `": "`, and Python's reading of escapes and numbers.

* `sortKeys`, `dumps` — writing;
* `loads` — reading, by fuel, which the length of a text bounds.

How `float` reads a token is a parameter (`FloatReader`), of which only the
round trip of `repr` is known.  `NaN` and the infinities are no `Value`, and an
unpaired surrogate escape is no text, so neither is read.
-/

namespace Py.Json

/-! ## Escapes -/

def quoteMark : Char := Char.ofNat 0x22
def backslash : Char := Char.ofNat 0x5c

/-- The short escapes: what follows the backslash, and what it stands for. -/
def shortEscapes : List (Char × Char) :=
  [(quoteMark, quoteMark), (backslash, backslash), ('n', '\n'), ('r', '\r'), ('t', '\t'), ('f', Char.ofNat 0x0c),
    ('b', Char.ofNat 0x08)]

def hexDigits : List Char := ['0', '1', '2', '3', '4', '5', '6', '7', '8', '9', 'a', 'b', 'c', 'd', 'e', 'f']

def hexDigit (n : Nat) : Char := hexDigits.getD n '0'

/-- The value of a hexadecimal digit, in either case. -/
def hexValue? (c : Char) : Option Nat :=
  if c.isDigit then some (c.toNat - 48)
  else if 'a' ≤ c ∧ c ≤ 'f' then some (c.toNat - 87)
  else if 'A' ≤ c ∧ c ≤ 'F' then some (c.toNat - 55)
  else none

/-- Four digits of a UTF-16 unit. -/
def hex4 (unit : Nat) : List Char :=
  [hexDigit (unit / 4096 % 16), hexDigit (unit / 256 % 16), hexDigit (unit / 16 % 16), hexDigit (unit % 16)]

def hex4? (a b c d : Char) : Option Nat := do
  return 4096 * (← hexValue? a) + 256 * (← hexValue? b) + 16 * (← hexValue? c) + (← hexValue? d)

def escapeUnit (unit : Nat) : List Char := backslash :: 'u' :: hex4 unit

/-- The high and the low surrogate of an astral code point. -/
def highSurrogate (n : Nat) : Nat := 0xd800 + (n - 0x10000) / 0x400
def lowSurrogate (n : Nat) : Nat := 0xdc00 + (n - 0x10000) % 0x400

def isHigh (unit : Nat) : Bool := 0xd800 ≤ unit && unit ≤ 0xdbff
def isLow (unit : Nat) : Bool := 0xdc00 ≤ unit && unit ≤ 0xdfff

/-- The code point of a surrogate pair. -/
def combine (high low : Nat) : Nat := 0x10000 + (high - 0xd800) * 0x400 + (low - 0xdc00)

/-- The short escape of a character. -/
def shortEscape? (c : Char) : Option Char := (shortEscapes.find? fun escape => escape.2 == c).map Prod.fst

/-- One character of an ASCII string. -/
def escapeChar (c : Char) : List Char :=
  match shortEscape? c with
  | some e => [backslash, e]
  | none =>
    if ' ' ≤ c ∧ c ≤ '~' then [c]
    else if c.toNat < 0x10000 then escapeUnit c.toNat
    else escapeUnit (highSurrogate c.toNat) ++ escapeUnit (lowSurrogate c.toNat)

def quote (s : String) : List Char := quoteMark :: s.toList.flatMap escapeChar ++ [quoteMark]

/-! ## Writing -/

/-- `value` with the items of every dict sorted by key. -/
def byKey {α : Type} (x y : String × α) : Prop := x.1 ≤ y.1

instance {α : Type} : DecidableRel (byKey (α := α)) := fun x y => inferInstanceAs (Decidable (x.1 ≤ y.1))

instance {α : Type} : Std.Total (byKey (α := α)) := ⟨fun x y => le_total x.1 y.1⟩

instance {α : Type} : IsTrans (String × α) byKey := ⟨fun _ _ _ => le_trans⟩

mutual

def sortKeys : Value → Value
  | .list xs => .list (sortKeysElems xs)
  | .tuple xs => .tuple (sortKeysElems xs)
  | .dict items => .dict ((sortKeysItems items).insertionSort byKey)
  | .scalar s => .scalar s
  | .mixedDict items key => .mixedDict items key
  | .other typeName => .other typeName

def sortKeysElems : List Value → List Value
  | [] => []
  | x :: xs => sortKeys x :: sortKeysElems xs

def sortKeysItems : List (String × Value) → List (String × Value)
  | [] => []
  | (key, x) :: items => (key, sortKeys x) :: sortKeysItems items

end

/-- `int.__repr__`. -/
def intRepr (i : Int) : List Char :=
  if i < 0 then '-' :: Nat.toDigits 10 i.natAbs else Nat.toDigits 10 i.natAbs

def scalarText : Scalar → List Char
  | .none => ['n', 'u', 'l', 'l']
  | .bool true => ['t', 'r', 'u', 'e']
  | .bool false => ['f', 'a', 'l', 's', 'e']
  | .int i => intRepr i
  | .float f => f.repr.toList
  | .str s => quote s

mutual

/-- The text of a value, if it has one. -/
def text? : Value → Option (List Char)
  | .scalar s => some (scalarText s)
  | .list [] | .tuple [] => some ['[', ']']
  | .list (x :: xs) | .tuple (x :: xs) => do return '[' :: (← text? x) ++ (← elemsText? xs) ++ [']']
  | .dict [] => some ['{', '}']
  | .dict ((key, x) :: items) => do
    return '{' :: quote key ++ [':', ' '] ++ (← text? x) ++ (← itemsText? items) ++ ['}']
  | .mixedDict _ _ | .other _ => none

/-- The elements after the first. -/
def elemsText? : List Value → Option (List Char)
  | [] => some []
  | x :: xs => do return ',' :: ' ' :: (← text? x) ++ (← elemsText? xs)

/-- The items after the first. -/
def itemsText? : List (String × Value) → Option (List Char)
  | [] => some []
  | (key, x) :: items => do return ',' :: ' ' :: quote key ++ [':', ' '] ++ (← text? x) ++ (← itemsText? items)

end

/-- `json.dumps(value, sort_keys=True)`; a value of another type is refused. -/
def dumps (value : Value) : Option String := (text? (sortKeys value)).map String.ofList

/-! ## Reading strings -/

/-- A character of a string literal, or a `\u` escape. -/
inductive CodeUnit
  | char (c : Char)
  | escaped (unit : Nat)
deriving DecidableEq

/-- The rest of a string literal up to its closing quote, and what follows. -/
def scanUnits : List Char → Option (List CodeUnit × List Char)
  | [] => none
  | c :: cs =>
    if c = quoteMark then
      some ([], cs)
    else if c = backslash then
      match cs with
      | [] => none
      | e :: cs =>
        if e = 'u' then
          match cs with
          | a :: b :: c :: d :: cs => do
            let unit ← hex4? a b c d
            let (units, rest) ← scanUnits cs
            return (.escaped unit :: units, rest)
          | _ => none
        else do
          let meant ← if e = '/' then some '/' else shortEscapes.lookup e
          let (units, rest) ← scanUnits cs
          return (.char meant :: units, rest)
    else if c < ' ' then
      none
    else do
      let (units, rest) ← scanUnits cs
      return (.char c :: units, rest)

/-- Surrogate escapes next to each other are one character. -/
def joinUnits : List CodeUnit → Option (List Char)
  | [] => some []
  | .char c :: units => (joinUnits units).map (c :: ·)
  | .escaped unit :: units =>
    if isHigh unit then
      match units with
      | .escaped low :: units => if isLow low then (joinUnits units).map (Char.ofNat (combine unit low) :: ·) else none
      | _ => none
    else if isLow unit then none
    else (joinUnits units).map (Char.ofNat unit :: ·)

/-- A string literal after its opening quote. -/
def scanString (cs : List Char) : Option (String × List Char) := do
  let (units, rest) ← scanUnits cs
  return (String.ofList (← joinUnits units), rest)

/-! ## Reading values -/

/-- Reading the token of a `float`. -/
structure FloatReader where
  read : String → Option PyFloat
  read_repr : ∀ f : PyFloat, read f.repr = some f

/-- `int(token)`. -/
def readInt : List Char → Int
  | '-' :: cs => -(Nat.ofDigitChars 10 cs 0 : Int)
  | cs => Nat.ofDigitChars 10 cs 0

/-- `json` skips these between tokens. -/
def isSpace (c : Char) : Bool := c == ' ' || c == '\t' || c == '\n' || c == '\r'

def skipSpace (cs : List Char) : List Char := cs.dropWhile isSpace

/-- Set an item of a dict: a key that is there keeps its place. -/
def setItem (items : List (String × Value)) (item : String × Value) : List (String × Value) :=
  if items.any fun other => other.1 == item.1 then
    items.map fun other => if other.1 = item.1 then item else other
  else
    items ++ [item]

/-- The dict of an object's members. -/
def dictOf (items : List (String × Value)) : Value := .dict (items.foldl setItem [])

/-- The literal at the front of a text. -/
def literal? (cs : List Char) : Option (Value × List Char) :=
  if ['n', 'u', 'l', 'l'].isPrefixOf cs then some (.none, cs.drop 4)
  else if ['t', 'r', 'u', 'e'].isPrefixOf cs then some (.bool true, cs.drop 4)
  else if ['f', 'a', 'l', 's', 'e'].isPrefixOf cs then some (.bool false, cs.drop 5)
  else none

/-- The number at the front of a text. -/
def number? (floats : FloatReader) (cs : List Char) : Option (Value × List Char) :=
  match numberToken cs with
  | none => none
  | some (token, true) => (floats.read (String.ofList token)).map fun f => (.float f, cs.drop token.length)
  | some (token, false) => some (.int (readInt token), cs.drop token.length)

mutual

/-- The value at the front of a text, and what follows it. -/
def parseValue (floats : FloatReader) : Nat → List Char → Option (Value × List Char)
  | 0, _ => none
  | _, [] => none
  | fuel + 1, c :: cs =>
    if c = quoteMark then
      (scanString cs).map fun (s, rest) => (.str s, rest)
    else if c = '[' then
      match skipSpace cs with
      | ']' :: rest => some (.list [], rest)
      | cs => (parseElems floats fuel cs).map fun (xs, rest) => (.list xs, rest)
    else if c = '{' then
      match skipSpace cs with
      | '}' :: rest => some (.dict [], rest)
      | cs => (parseItems floats fuel cs).map fun (items, rest) => (dictOf items, rest)
    else
      (literal? (c :: cs)).or (number? floats (c :: cs))

/-- The elements of an array, up to its bracket. -/
def parseElems (floats : FloatReader) : Nat → List Char → Option (List Value × List Char)
  | 0, _ => none
  | fuel + 1, cs => do
    let (x, rest) ← parseValue floats fuel cs
    match skipSpace rest with
    | ']' :: rest => return ([x], rest)
    | ',' :: rest => do
      let (xs, rest) ← parseElems floats fuel (skipSpace rest)
      return (x :: xs, rest)
    | _ => none

/-- The members of an object, up to its brace. -/
def parseItems (floats : FloatReader) : Nat → List Char → Option (List (String × Value) × List Char)
  | 0, _ => none
  | _, [] => none
  | fuel + 1, c :: cs =>
    if c = quoteMark then do
      let (key, rest) ← scanString cs
      match skipSpace rest with
      | ':' :: rest => do
        let (x, rest) ← parseValue floats fuel (skipSpace rest)
        match skipSpace rest with
        | '}' :: rest => return ([(key, x)], rest)
        | ',' :: rest => do
          let (items, rest) ← parseItems floats fuel (skipSpace rest)
          return ((key, x) :: items, rest)
        | _ => none
      | _ => none
    else
      none

end

/-- `json.loads(text)`. -/
def loads (floats : FloatReader) (text : String) : Option Value := do
  let (value, rest) ← parseValue floats (text.length + 1) (skipSpace text.toList)
  if skipSpace rest = [] then some value else none

end Py.Json
