import Mathlib.Data.List.Dedup
import Mathlib.Data.List.Sort
import MinionAgent.Library.DecimalUnits
import MinionAgent.Library.JsonPointer
import MinionAgent.Library.JsonTree
import MinionAgent.Library.Surrogates

/-!
# MinionAgent.Tools.NumericCarrier

The private carrier of the schema validation (`tools/prepared_validation.rs`):
non-finite numbers and strings that are no text are given tags that occur neither
in the schema nor in the instance.

A Rust string is kept in its UTF-16 code units, like a prepared string.

* `NumericCarrier.new` — the tags for a schema and an instance;
* `encode`, `encodeSchema` — the two encodings.
-/

namespace MinionAgent.PreparedValidation

/-! ## Values -/

/-- `PreparedString`: its code units. -/
abbrev PreparedString : Type := List UInt16

/-- `as_str`: the string where it is a text. -/
def asStr (s : PreparedString) : Option PreparedString :=
  if (decode16 s).all fun c => (scalar? c).isSome then some s else none

/-- The code units of a literal. -/
def units (literal : String) : PreparedString := literal.toList.map fun c => c.toNat.toUInt16

/-- A finite double, by its bits. -/
structure FiniteDouble where
  bits : Nat
  inRange : bits < 2 ^ 64
  finite : bits / 2 ^ 52 % 2048 ≠ 2047
deriving DecidableEq

/-- `serde_json::Number`. -/
inductive Number
  | posInt (n : UInt64)
  | negInt (n : Int64)
  | float (x : FiniteDouble)
deriving DecidableEq

/-- The bits of the double nearest to a natural number, ties to even. -/
def naturalBits (n : Nat) : Nat :=
  if n = 0 then 0
  else
    let exponent := n.log2
    if exponent ≤ 52 then (exponent + 1022) * 2 ^ 52 + n * 2 ^ (52 - exponent)
    else
      let unit := 2 ^ (exponent - 52)
      let up := unit < 2 * (n % unit) ∨ (unit = 2 * (n % unit) ∧ n / unit % 2 = 1)
      (exponent + 1022) * 2 ^ 52 + n / unit + if up then 1 else 0

/-- `as_f64().unwrap().to_bits()`. -/
def Number.toBits : Number → Nat
  | .posInt n => naturalBits n.toNat
  | .negInt n => 2 ^ 63 + naturalBits n.toInt.natAbs
  | .float x => x.bits

/-- Equality of numbers; zeros are equal whatever their sign. -/
def Number.same : Number → Number → Bool
  | .posInt n, .posInt m => n == m
  | .negInt n, .negInt m => n == m
  | .float x, .float y => x.bits == y.bits || (x.bits % 2 ^ 63 == 0 && y.bits % 2 ^ 63 == 0)
  | _, _ => false

/-- `PreparedNumber`. -/
inductive PreparedNumber
  | finite (n : Number)
  | positiveInfinity
  | negativeInfinity
  | nan
deriving DecidableEq

def PreparedNumber.same : PreparedNumber → PreparedNumber → Bool
  | .finite n, .finite m => n.same m
  | .positiveInfinity, .positiveInfinity => true
  | .negativeInfinity, .negativeInfinity => true
  | .nan, .nan => true
  | _, _ => false

/-- `PreparedValue`. -/
abbrev PreparedValue : Type := JsonTree PreparedString PreparedNumber

/-- `serde_json::Value`. -/
abbrev Value : Type := JsonTree PreparedString Number

/-! ## Pointers -/

/-- Pointers in code units. -/
def pointer : JsonPointer UInt16 where
  hash := 35
  slash := 47
  tilde := 126
  zero := 48
  one := 49
  slash_ne_tilde := by decide
  slash_ne_zero := by decide
  slash_ne_one := by decide
  zero_ne_one := by decide

/-- `decode_pointer_segment`. -/
def decodePointerSegment (segment : PreparedString) : PreparedString := pointer.decode segment

/-- The segments of a reference. -/
def segments (reference : PreparedString) : List PreparedString :=
  (pointer.rawTokens reference).map decodePointerSegment

/-! ## Tags of numbers -/

/-- `collect_runtime`. -/
def collectRuntime (value : PreparedValue) : List Nat :=
  value.collect (fun _ => []) (fun _ => []) fun
    | .finite n => [n.toBits]
    | _ => []

/-- `f64::MAX.to_bits()`. -/
def maxBits : Nat := 0x7FEFFFFFFFFFFFFF

/-- The search for an unused pattern: it, and where the next search starts.  The
pattern is decremented in any case, which fails at zero. -/
def unused (used : List Nat) : Nat → Option (Nat × Nat)
  | 0 => none
  | bits + 1 => if bits + 1 ∈ used then unused used bits else some (bits + 1, bits)

/-- `Number::from_f64(f64::from_bits(bits))`. -/
def fromBits (bits : Nat) : Option Number :=
  if h : bits < 2 ^ 64 ∧ bits / 2 ^ 52 % 2048 ≠ 2047 then some (.float ⟨bits, h.1, h.2⟩) else none

/-- One tag, and where the search for the next starts. -/
def nextTag (used : List Nat) (start : Nat) : Option (Number × Nat) := do
  let (bits, rest) ← unused used start
  return (← fromBits bits, rest)

/-- The three tags. -/
def newTags (used : List Nat) : Option (Number × Number × Number) := do
  let (first, bits) ← nextTag used maxBits
  let (second, bits) ← nextTag used bits
  let (third, _) ← nextTag used bits
  return (first, second, third)

/-! ## Tags of strings -/

/-- `runtime_strings`: strings and keys. -/
def runtimeStrings (value : PreparedValue) : List PreparedString := value.strings

/-- `reference_segments`. -/
def referenceSegments (value : PreparedValue) : List PreparedString :=
  value.collect (fun _ => []) (fun s => if pointer.isPointer s then segments s else []) fun _ => []

/-- All that is collected of a schema and an instance. -/
def collected (schema value : PreparedValue) : List PreparedString :=
  runtimeStrings schema ++ runtimeStrings value ++ referenceSegments schema

/-- The set of special strings, in its order. -/
def specialStrings (strings : List PreparedString) : List PreparedString :=
  ((strings.filter fun s => (asStr s).isNone).dedup).insertionSort fun a b => a ≤ b

/-- `__minion_private_utf16_{index}__`. -/
def tagText (index : Nat) : PreparedString :=
  units "__minion_private_utf16_" ++ DecimalUnits.digits index ++ units "__"

/-- The search for an unused tag: it, and the next index. -/
def unusedTag (used : List PreparedString) : Nat → Nat → Option (PreparedString × Nat)
  | 0, _ => none
  | fuel + 1, index =>
    if used.contains (tagText index) then unusedTag used fuel (index + 1) else some (tagText index, index + 1)

/-- Tags for the special strings, with more fuel for each than there are tags in use. -/
def newStrings (used : List PreparedString) :
    List PreparedString → Nat → Option (List (PreparedString × PreparedString))
  | [], _ => some []
  | value :: special, index => do
    let (tag, next) ← unusedTag used (used.length + 1) index
    let strings ← newStrings (tag :: used) special next
    return (tag, value) :: strings

/-! ## The carrier -/

/-- `NumericCarrier`. -/
structure NumericCarrier where
  tags : Number × Number × Number
  strings : List (PreparedString × PreparedString)

namespace NumericCarrier

/-- `NumericCarrier::new`. -/
def new (schema value : PreparedValue) : Option NumericCarrier := do
  let tags ← newTags (collectRuntime schema ++ collectRuntime value)
  let all := collected schema value
  let strings ← newStrings (all.filter fun s => (asStr s).isSome) (specialStrings all) 0
  return ⟨tags, strings⟩

variable (c : NumericCarrier)

/-- `encode_string`; nothing where it panics. -/
def encodeString? (value : PreparedString) : Option PreparedString :=
  match asStr value with
  | some text => some text
  | none => (c.strings.find? fun entry => entry.2 == value).map (·.1)

/-- What `encode_string` returns, where it does. -/
def encodeString (value : PreparedString) : PreparedString := (c.encodeString? value).getD []

/-- `string`. -/
def string (value : PreparedString) : PreparedString := (c.strings.lookup value).getD value

/-- The tag of a number, or the number. -/
def encodeNumber : PreparedNumber → Number
  | .finite n => n
  | .positiveInfinity => c.tags.1
  | .negativeInfinity => c.tags.2.1
  | .nan => c.tags.2.2

/-- `special`. -/
def special : Value → Option PreparedNumber
  | .number n =>
    if c.tags.1.toBits = n.toBits then some .positiveInfinity
    else if c.tags.2.1.toBits = n.toBits then some .negativeInfinity
    else if c.tags.2.2.toBits = n.toBits then some .nan
    else none
  | _ => none

/-- `encode`: every part by itself. -/
def encode (value : PreparedValue) : Value := value.map c.encodeString c.encodeNumber

/-! ## Schemas -/

/-- The keywords of references. -/
def referenceKeys : List PreparedString := ["$ref", "$dynamicRef"].map units

/-- The keywords of maps from names to schemas. -/
def mapKeys : List PreparedString :=
  ["properties", "patternProperties", "$defs", "definitions", "dependentSchemas"].map units

/-- The keywords of literals. -/
def literalKeys : List PreparedString := ["const", "enum", "default", "examples"].map units

/-- A reference within the schema, where an entry is one. -/
def reference? (key : PreparedString) : PreparedValue → Option PreparedString
  | .string s => if referenceKeys.contains key && pointer.isPointer s then some s else none
  | _ => none

/-- A reference, with each segment encoded. -/
def rewrite (reference : PreparedString) : PreparedString := pointer.text ((segments reference).map c.encodeString)

/-- An object. -/
def isObject : PreparedValue → Bool
  | .object _ => true
  | _ => false

mutual

/-- `encode_schema`. -/
def encodeSchema : PreparedValue → Value
  | .null => c.encode .null
  | .bool b => c.encode (.bool b)
  | .number n => c.encode (.number n)
  | .string s => c.encode (.string s)
  | .array items => .array (encodeSchemas items)
  | .object entries => .object (encodeMembers entries)

def encodeSchemas : List PreparedValue → List Value
  | [] => []
  | v :: items => encodeSchema v :: encodeSchemas items

/-- The members of a schema. -/
def encodeMembers : List (PreparedString × PreparedValue) → List (PreparedString × Value)
  | [] => []
  | (k, v) :: entries =>
    (c.encodeString k,
      match reference? k v with
      | some s => .string (c.rewrite s)
      | none =>
        if mapKeys.contains k && isObject v then encodeMap v
        else if literalKeys.contains k then c.encode v
        else encodeSchema v) :: encodeMembers entries

/-- A map from names to schemas. -/
def encodeMap : PreparedValue → Value
  | .object entries => .object (encodeSubschemas entries)
  | v => c.encode v

def encodeSubschemas : List (PreparedString × PreparedValue) → List (PreparedString × Value)
  | [] => []
  | (name, subschema) :: entries => (c.encodeString name, encodeSchema subschema) :: encodeSubschemas entries

end

end NumericCarrier

end MinionAgent.PreparedValidation
