import Mathlib.Tactic.IntervalCases

/-!
# MinionAgent.Library.Base64

Base64 text of bytes, as Python's `base64` module writes and reads it.

`decode` follows the lenient reader: characters outside the alphabet are
skipped, a completed padding ends the input, and a group left incomplete is an
error.  `decode_encode` is the round trip.
-/

namespace Base64

/-! ## The alphabet -/

/-- The character of a six-bit digit. -/
def digit (n : Nat) : Char :=
  if n < 26 then Char.ofNat (65 + n)
  else if n < 52 then Char.ofNat (71 + n)
  else if n < 62 then Char.ofNat (n - 4)
  else if n = 62 then '+'
  else '/'

/-- The digit a character stands for. -/
def value? (c : Char) : Option Nat :=
  let n := c.toNat
  if 65 ≤ n ∧ n ≤ 90 then some (n - 65)
  else if 97 ≤ n ∧ n ≤ 122 then some (n - 71)
  else if 48 ≤ n ∧ n ≤ 57 then some (n + 4)
  else if n = 43 then some 62
  else if n = 47 then some 63
  else none

theorem value?_digit {n : Nat} (h : n < 64) : value? (digit n) = some n := by
  interval_cases n <;> decide

theorem digit_ne_pad {n : Nat} (h : n < 64) : digit n ≠ '=' := by
  interval_cases n <;> decide

theorem digit_isAscii {n : Nat} (h : n < 64) : (digit n).toNat < 128 := by
  interval_cases n <;> decide

/-! ## Writing -/

/-- Groups of three bytes as four digits, the last group padded. -/
def encodeChars : List UInt8 → List Char
  | [] => []
  | [a] => [digit (a.toNat / 4), digit (a.toNat % 4 * 16), '=', '=']
  | [a, b] =>
    [digit (a.toNat / 4), digit (a.toNat % 4 * 16 + b.toNat / 16), digit (b.toNat % 16 * 4), '=']
  | a :: b :: c :: rest =>
    digit (a.toNat / 4) :: digit (a.toNat % 4 * 16 + b.toNat / 16) ::
      digit (b.toNat % 16 * 4 + c.toNat / 64) :: digit (c.toNat % 64) :: encodeChars rest

/-- `b64encode(bytes).decode("ascii")`. -/
def encode (bytes : List UInt8) : String := String.ofList (encodeChars bytes)

/-! ## Reading -/

/-- The reader's loop: the position in the group, the bits left over from the
last digit, and the padding characters seen in the group. -/
def decodeChars : Nat → Nat → Nat → List Char → Option (List UInt8)
  | quadPos, _, _, [] => if quadPos = 0 then some [] else none
  | quadPos, left, pads, c :: cs =>
    if c = '=' then
      if quadPos < 2 then decodeChars quadPos left pads cs
      else if quadPos + pads + 1 ≥ 4 then some []
      else decodeChars quadPos left (pads + 1) cs
    else
      match value? c with
      | none => decodeChars quadPos left pads cs
      | some v =>
        match quadPos with
        | 0 => decodeChars 1 v 0 cs
        | 1 => (decodeChars 2 (v % 16) 0 cs).map (UInt8.ofNat (left * 4 + v / 16) :: ·)
        | 2 => (decodeChars 3 (v % 4) 0 cs).map (UInt8.ofNat (left * 16 + v / 4) :: ·)
        | _ => (decodeChars 0 0 0 cs).map (UInt8.ofNat (left * 64 + v) :: ·)

/-- `b64decode(text)`; `none` where it raises. -/
def decode (text : String) : Option (List UInt8) :=
  if text.toList.all fun c => c.toNat < 128 then decodeChars 0 0 0 text.toList else none

/-! ## Round trip -/

theorem decodeChars_digit {n : Nat} (h : n < 64) (quadPos left pads : Nat) (cs : List Char) :
    decodeChars quadPos left pads (digit n :: cs) =
      match quadPos with
      | 0 => decodeChars 1 n 0 cs
      | 1 => (decodeChars 2 (n % 16) 0 cs).map (UInt8.ofNat (left * 4 + n / 16) :: ·)
      | 2 => (decodeChars 3 (n % 4) 0 cs).map (UInt8.ofNat (left * 16 + n / 4) :: ·)
      | _ => (decodeChars 0 0 0 cs).map (UInt8.ofNat (left * 64 + n) :: ·) := by
  rw [decodeChars, if_neg (digit_ne_pad h), value?_digit h]

theorem decodeChars_two_pads (left : Nat) : decodeChars 2 left 0 ['=', '='] = some [] := rfl

theorem decodeChars_one_pad (left : Nat) : decodeChars 3 left 0 ['='] = some [] := rfl

private theorem ofNat_of_eq {a : UInt8} {n : Nat} (h : n = a.toNat) : UInt8.ofNat n = a := by
  rw [h, UInt8.ofNat_toNat]

theorem decodeChars_encodeChars (bytes : List UInt8) : decodeChars 0 0 0 (encodeChars bytes) = some bytes := by
  induction bytes using encodeChars.induct with
  | case1 => rfl
  | case2 a =>
    have ha := a.toNat_lt
    have hdigit₁ : a.toNat / 4 < 64 := by omega
    have hdigit₂ : a.toNat % 4 * 16 < 64 := by omega
    have hout : UInt8.ofNat (a.toNat / 4 * 4 + a.toNat % 4 * 16 / 16) = a := ofNat_of_eq (by omega)
    simp only [encodeChars, decodeChars_digit hdigit₁, decodeChars_digit hdigit₂, decodeChars_two_pads, hout,
      Option.map_some]
  | case3 a b =>
    have ha := a.toNat_lt
    have hb := b.toNat_lt
    have hdigit₁ : a.toNat / 4 < 64 := by omega
    have hdigit₂ : a.toNat % 4 * 16 + b.toNat / 16 < 64 := by omega
    have hdigit₃ : b.toNat % 16 * 4 < 64 := by omega
    have hout₁ : UInt8.ofNat (a.toNat / 4 * 4 + (a.toNat % 4 * 16 + b.toNat / 16) / 16) = a := ofNat_of_eq (by omega)
    have hout₂ : UInt8.ofNat ((a.toNat % 4 * 16 + b.toNat / 16) % 16 * 16 + b.toNat % 16 * 4 / 4) = b :=
      ofNat_of_eq (by omega)
    simp only [encodeChars, decodeChars_digit hdigit₁, decodeChars_digit hdigit₂, decodeChars_digit hdigit₃,
      decodeChars_one_pad, hout₁, hout₂, Option.map_some]
  | case4 a b c rest ih =>
    have ha := a.toNat_lt
    have hb := b.toNat_lt
    have hc := c.toNat_lt
    have hdigit₁ : a.toNat / 4 < 64 := by omega
    have hdigit₂ : a.toNat % 4 * 16 + b.toNat / 16 < 64 := by omega
    have hdigit₃ : b.toNat % 16 * 4 + c.toNat / 64 < 64 := by omega
    have hdigit₄ : c.toNat % 64 < 64 := by omega
    have hout₁ : UInt8.ofNat (a.toNat / 4 * 4 + (a.toNat % 4 * 16 + b.toNat / 16) / 16) = a := ofNat_of_eq (by omega)
    have hout₂ : UInt8.ofNat ((a.toNat % 4 * 16 + b.toNat / 16) % 16 * 16 +
        (b.toNat % 16 * 4 + c.toNat / 64) / 4) = b :=
      ofNat_of_eq (by omega)
    have hout₃ : UInt8.ofNat ((b.toNat % 16 * 4 + c.toNat / 64) % 4 * 64 + c.toNat % 64) = c := ofNat_of_eq (by omega)
    simp only [encodeChars, decodeChars_digit hdigit₁, decodeChars_digit hdigit₂, decodeChars_digit hdigit₃,
      decodeChars_digit hdigit₄, ih, hout₁, hout₂, hout₃, Option.map_some]

theorem isAscii_encodeChars (bytes : List UInt8) : ∀ c ∈ encodeChars bytes, c.toNat < 128 := by
  induction bytes using encodeChars.induct with
  | case1 => simp [encodeChars]
  | case2 a =>
    have ha := a.toNat_lt
    simp only [encodeChars, List.forall_mem_cons]
    exact ⟨digit_isAscii (by omega), digit_isAscii (by omega), by decide, by decide, by simp⟩
  | case3 a b =>
    have ha := a.toNat_lt
    have hb := b.toNat_lt
    simp only [encodeChars, List.forall_mem_cons]
    exact ⟨digit_isAscii (by omega), digit_isAscii (by omega), digit_isAscii (by omega), by decide, by simp⟩
  | case4 a b c rest ih =>
    have ha := a.toNat_lt
    have hb := b.toNat_lt
    have hc := c.toNat_lt
    simp only [encodeChars, List.forall_mem_cons]
    exact ⟨digit_isAscii (by omega), digit_isAscii (by omega), digit_isAscii (by omega), digit_isAscii (by omega), ih⟩

/-- What was written is read back. -/
@[simp] theorem decode_encode (bytes : List UInt8) : decode (encode bytes) = some bytes := by
  have hascii : (encodeChars bytes).all (fun c => c.toNat < 128) = true := by
    rw [List.all_eq_true]
    intro c hc
    simpa using isAscii_encodeChars bytes c hc
  rw [decode, encode, String.toList_ofList, if_pos hascii, decodeChars_encodeChars]

example : encode [77, 97, 110, 33] = "TWFuIQ==" := by decide

end Base64
