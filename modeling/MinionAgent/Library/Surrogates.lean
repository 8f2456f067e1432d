import MinionAgent.Library.Utf16
import MinionAgent.Library.Utf8Strict

/-!
# MinionAgent.Library.Surrogates

Strings of code points that may hold surrogates, and the native forms they
stand for.

* `toUnits_decode16` — UTF-16 units of any kind come back from their string;
* `fsencode_fsdecode` — bytes of any kind come back from theirs, each invalid
  byte as a surrogate;
* `decodeStrict_wtf8` — generalized UTF-8 is UTF-8 just when no surrogate is in
  it.
-/

namespace MinionAgent

open Rfc8259 (CodePoint codePoint)
open Utf16 (unitsOf)

/-- The character of a code point that is no surrogate. -/
def scalar? (c : CodePoint) : Option Char :=
  if h : c.val.isValidChar then some (Char.ofNatAux c.val h) else none

/-- The code point of a character. -/
def codePointOf (c : Char) : CodePoint :=
  ⟨c.toNat, c.valid.elim (fun h => Nat.lt_trans h (by decide)) fun h => h.2⟩

theorem scalar?_codePointOf (c : Char) : scalar? (codePointOf c) = some c := by
  rw [scalar?, dif_pos (show (codePointOf c).val.isValidChar from c.valid)]
  rfl

theorem eq_of_scalar? {c : CodePoint} {ch : Char} (h : scalar? c = some ch) : c = codePointOf ch := by
  by_cases hvalid : c.val.isValidChar
  · rw [scalar?, dif_pos hvalid] at h
    obtain rfl := Option.some.inj h
    rfl
  · rw [scalar?, dif_neg hvalid] at h
    cases h

theorem surrogate_of_scalar? {c : CodePoint} (h : scalar? c = none) : 0xD800 ≤ c.val ∧ c.val < 0xE000 := by
  by_cases hvalid : c.val.isValidChar
  · rw [scalar?, dif_pos hvalid] at h
    cases h
  · rw [Nat.isValidChar] at hvalid
    have := c.isLt
    omega

/-- The text of code points that are all characters. -/
def scalars? (text : List CodePoint) : Option (List Char) := text.mapM scalar?

theorem scalars?_map (text : List Char) : scalars? (text.map codePointOf) = some text := by
  induction text with
  | nil => rfl
  | cons c text ih =>
    rw [scalars?] at ih ⊢
    rw [List.map_cons, List.mapM_cons, scalar?_codePointOf, ih]
    rfl

theorem eq_of_scalars? {text : List CodePoint} {chars : List Char} (h : scalars? text = some chars) :
    text = chars.map codePointOf := by
  induction text generalizing chars with
  | nil =>
    obtain rfl := Option.some.inj h
    rfl
  | cons c text ih =>
    rw [scalars?, List.mapM_cons] at h
    cases hc : scalar? c with
    | none => simp [hc] at h
    | some ch =>
      cases hrest : scalars? text with
      | none =>
        rw [scalars?] at hrest
        simp [hrest] at h
      | some tail =>
        have htail := ih hrest
        rw [scalars?] at hrest
        simp only [hc, hrest, Option.bind_eq_bind, Option.bind_some, Option.pure_def, Option.some.injEq] at h
        rw [← h, List.map_cons, htail, eq_of_scalar? hc]

/-! ## UTF-16 -/

/-- A pair of surrogates. -/
def isPair (high low : UInt16) : Bool :=
  0xD800 ≤ high.toNat && high.toNat < 0xDC00 && 0xDC00 ≤ low.toNat && low.toNat < 0xE000

/-- `bytes.decode("utf-16-le", "surrogatepass")`, over the units. -/
def decode16 : List UInt16 → List CodePoint
  | [] => []
  | [unit] => [codePoint unit.toNat]
  | unit :: next :: units =>
    if isPair unit next then
      codePoint (0x10000 + (unit.toNat - 0xD800) * 0x400 + (next.toNat - 0xDC00)) :: decode16 units
    else codePoint unit.toNat :: decode16 (next :: units)

theorem codePoint_val {n : Nat} (h : n < 0x110000) : (codePoint n).val = n := Nat.mod_eq_of_lt h

theorem unitsOf_unit (unit : UInt16) : unitsOf (codePoint unit.toNat) = [unit] := by
  have hlt := unit.toNat_lt
  rw [unitsOf, codePoint_val (by omega), if_pos hlt]
  simp

theorem unitsOf_pair {high low : UInt16} (h : isPair high low = true) :
    unitsOf (codePoint (0x10000 + (high.toNat - 0xD800) * 0x400 + (low.toNat - 0xDC00))) = [high, low] := by
  simp only [isPair, Bool.and_eq_true, decide_eq_true_eq] at h
  obtain ⟨⟨⟨hhigh, hhigh'⟩, hlow⟩, hlow'⟩ := h
  rw [unitsOf, codePoint_val (by omega), if_neg (by omega)]
  have hfirst : 0xD800 + (0x10000 + (high.toNat - 0xD800) * 0x400 + (low.toNat - 0xDC00) - 0x10000) / 0x400 =
      high.toNat := by
    omega
  have hsecond : 0xDC00 + (0x10000 + (high.toNat - 0xD800) * 0x400 + (low.toNat - 0xDC00) - 0x10000) % 0x400 =
      low.toNat := by
    omega
  rw [hfirst, hsecond]
  simp

/-- Units of any kind come back. -/
theorem toUnits_decode16 (units : List UInt16) : Utf16.toUnits (decode16 units) = units := by
  induction units using decode16.induct with
  | case1 => rfl
  | case2 unit => simp [decode16, Utf16.toUnits, unitsOf_unit]
  | case3 unit next units hpair ih =>
    rw [decode16, if_pos hpair, Utf16.toUnits, List.flatMap_cons, unitsOf_pair hpair]
    exact congrArg (unit :: next :: ·) ih
  | case4 unit next units hpair ih =>
    rw [decode16, if_neg hpair, Utf16.toUnits, List.flatMap_cons, unitsOf_unit]
    exact congrArg (unit :: ·) ih

theorem decode16_injective : Function.Injective decode16 := by
  intro units units' h
  have hunits := toUnits_decode16 units
  rw [h, toUnits_decode16] at hunits
  exact hunits.symm

/-- A unit that is no high surrogate is a code point of its own. -/
theorem decode16_cons {unit : UInt16} (h : unit.toNat < 0xD800 ∨ 0xDC00 ≤ unit.toNat) (units : List UInt16) :
    decode16 (unit :: units) = codePoint unit.toNat :: decode16 units := by
  cases units with
  | nil => rfl
  | cons next units =>
    have hpair : ¬ isPair unit next = true := by
      simp only [isPair, Bool.and_eq_true, decide_eq_true_eq]
      omega
    rw [decode16, if_neg hpair]

/-- A unit that is no low surrogate begins anew. -/
theorem decode16_append_cons (front : List UInt16) {unit : UInt16} (h : unit.toNat < 0xDC00 ∨ 0xE000 ≤ unit.toNat)
    (units : List UInt16) : decode16 (front ++ unit :: units) = decode16 front ++ decode16 (unit :: units) := by
  induction front using decode16.induct with
  | case1 => rfl
  | case2 first =>
    have hpair : ¬ isPair first unit = true := by
      simp only [isPair, Bool.and_eq_true, decide_eq_true_eq]
      omega
    show decode16 (first :: unit :: units) = codePoint first.toNat :: decode16 (unit :: units)
    rw [decode16, if_neg hpair]
  | case3 first next front hpair ih =>
    rw [List.cons_append, List.cons_append, decode16, if_pos hpair, decode16, if_pos hpair, ih]
    rfl
  | case4 first next front hpair ih =>
    rw [List.cons_append] at ih ⊢
    rw [List.cons_append, decode16, if_neg hpair, decode16, if_neg hpair, ih]
    rfl

/-- A unit that is no surrogate ends what comes before it. -/
theorem decode16_append (front : List UInt16) {unit : UInt16} (h : unit.toNat < 0xD800 ∨ 0xE000 ≤ unit.toNat)
    (units : List UInt16) :
    decode16 (front ++ unit :: units) = decode16 front ++ codePoint unit.toNat :: decode16 units := by
  rw [decode16_append_cons front (by omega), decode16_cons (by omega)]

theorem toNat_toUInt16 {n : Nat} (h : n < 0x10000) : n.toUInt16.toNat = n := by
  rw [Nat.toUInt16, UInt16.toNat_ofNat', Nat.mod_eq_of_lt h]

theorem codePoint_self (c : CodePoint) : codePoint c.val = c := Fin.ext (codePoint_val c.isLt)

/-- A text comes back from its units, whatever is behind them. -/
theorem decode16_toUnits_append (text : List Char) (units : List UInt16) :
    decode16 (Utf16.toUnits (text.map codePointOf) ++ units) = text.map codePointOf ++ decode16 units := by
  induction text with
  | nil => rfl
  | cons c text ih =>
    have hvalid : (codePointOf c).val < 0xD800 ∨
        0xDFFF < (codePointOf c).val ∧ (codePointOf c).val < 0x110000 := c.valid
    rw [List.map_cons, Utf16.toUnits, List.flatMap_cons, ← Utf16.toUnits, unitsOf]
    by_cases hbmp : (codePointOf c).val < 0x10000
    · have hunit := toNat_toUInt16 hbmp
      rw [if_pos hbmp, List.singleton_append, List.cons_append, decode16_cons (by omega), ih, hunit, codePoint_self]
      rfl
    · have hhigh := toNat_toUInt16 (n := 0xD800 + ((codePointOf c).val - 0x10000) / 0x400) (by omega)
      have hlow := toNat_toUInt16 (n := 0xDC00 + ((codePointOf c).val - 0x10000) % 0x400) (by omega)
      have hpair : isPair (0xD800 + ((codePointOf c).val - 0x10000) / 0x400).toUInt16
          (0xDC00 + ((codePointOf c).val - 0x10000) % 0x400).toUInt16 = true := by
        simp only [isPair, hhigh, hlow, Bool.and_eq_true, decide_eq_true_eq]
        omega
      rw [if_neg hbmp, List.cons_append, List.singleton_append, List.cons_append, List.cons_append, decode16,
        if_pos hpair, ih, hhigh, hlow]
      have hvalue : 0x10000 + (0xD800 + ((codePointOf c).val - 0x10000) / 0x400 - 0xD800) * 0x400 +
          (0xDC00 + ((codePointOf c).val - 0x10000) % 0x400 - 0xDC00) = (codePointOf c).val := by
        omega
      rw [hvalue, codePoint_self]
      rfl

/-- A text comes back from its units. -/
theorem decode16_toUnits (text : List Char) :
    decode16 (Utf16.toUnits (text.map codePointOf)) = text.map codePointOf := by
  have happend := decode16_toUnits_append text []
  rwa [List.append_nil, decode16, List.append_nil] at happend

/-- Units are valid UTF-16 just when they are those of a text. -/
theorem scalars?_decode16 {units : List UInt16} {text : List Char} :
    scalars? (decode16 units) = some text ↔ units = Utf16.toUnits (text.map codePointOf) := by
  constructor
  · intro h
    rw [← eq_of_scalars? h, toUnits_decode16]
  · rintro rfl
    rw [decode16_toUnits, scalars?_map]

/-! ## Generalized UTF-8 -/

/-- The three bytes of a surrogate. -/
def surrogateBytes (c : Nat) : List UInt8 :=
  [UInt8.ofNat (0xE0 + c / 0x1000), UInt8.ofNat (0x80 + c / 0x40 % 0x40), UInt8.ofNat (0x80 + c % 0x40)]

/-- `text.encode("utf-8", "surrogatepass")` of a code point. -/
def wtf8Bytes (c : CodePoint) : List UInt8 :=
  match scalar? c with
  | some ch => String.utf8EncodeChar ch
  | none => surrogateBytes c.val

/-- `text.encode("utf-8", "surrogatepass")`. -/
def wtf8 (text : List CodePoint) : List UInt8 := text.flatMap wtf8Bytes

/-- No character begins with the bytes of a surrogate. -/
theorem takeChar_surrogateBytes {c : Nat} (hc : 0xD800 ≤ c ∧ c < 0xE000) (rest : List UInt8) :
    takeChar (surrogateBytes c ++ rest) = none := by
  cases htake : takeChar (surrogateBytes c ++ rest) with
  | none => rfl
  | some ch =>
    obtain ⟨tail, htail⟩ := eq_append_of_takeChar htake
    have hvalid : ch.val.toNat < 0xD800 ∨ 0xDFFF < ch.val.toNat ∧ ch.val.toNat < 0x110000 := ch.valid
    have htoNat {a b : Nat} (ha : a < 0x100) (hb : b < 0x100) (h : UInt8.ofNat a = UInt8.ofNat b) : a = b := by
      have hnat := congrArg UInt8.toNat h
      rwa [UInt8.toNat_ofNat', UInt8.toNat_ofNat', Nat.mod_eq_of_lt ha, Nat.mod_eq_of_lt hb] at hnat
    exfalso
    revert htail
    fun_cases String.utf8EncodeChar ch with
    | case1 v hv =>
      intro htail
      have hfirst := htoNat (by omega) (by omega) (List.cons.inj htail).1
      omega
    | case2 v hv hv' =>
      intro htail
      have hfirst := htoNat (by omega) (by omega) (List.cons.inj htail).1
      omega
    | case3 v hv hv' hv'' =>
      intro htail
      have hfirst := htoNat (by omega) (by omega) (List.cons.inj htail).1
      have hsecond := htoNat (by omega) (by omega) (List.cons.inj (List.cons.inj htail).2).1
      omega
    | case4 v hv hv' hv'' =>
      intro htail
      have hfirst := htoNat (by omega) (by omega) (List.cons.inj htail).1
      omega

/-- Generalized UTF-8 is valid just when there is no surrogate in it. -/
theorem decodeStrict_wtf8 (text : List CodePoint) : decodeStrict (wtf8 text) = scalars? text := by
  induction text with
  | nil => exact decodeStrict_nil
  | cons c text ih =>
    rw [wtf8, List.flatMap_cons, ← wtf8, wtf8Bytes, scalars?, List.mapM_cons, ← scalars?, ← ih]
    cases hc : scalar? c with
    | some ch =>
      rw [decodeStrict_of_takeChar rfl]
      cases decodeStrict (wtf8 text) <;> rfl
    | none =>
      have htake := takeChar_surrogateBytes (surrogate_of_scalar? hc) (wtf8 text)
      rw [surrogateBytes] at htake ⊢
      exact decodeStrict_of_none htake

/-! ## Escaped bytes -/

/-- `os.fsdecode`: UTF-8 with each invalid byte as a surrogate. -/
def fsdecode (bytes : List UInt8) : List CodePoint :=
  match bytes with
  | [] => []
  | b :: rest =>
    match _h : takeChar (b :: rest) with
    | some c => codePointOf c :: fsdecode ((b :: rest).drop c.utf8Size)
    | none => codePoint (0xDC00 + b.toNat) :: fsdecode rest
termination_by bytes.length
decreasing_by
  · exact length_drop_takeChar_lt _h
  · simp

/-- `os.fsencode` of a code point, unless it is another surrogate. -/
def fsencodeChar (c : CodePoint) : Option (List UInt8) :=
  match scalar? c with
  | some ch => some (String.utf8EncodeChar ch)
  | none => if 0xDC80 ≤ c.val ∧ c.val ≤ 0xDCFF then some [UInt8.ofNat (c.val - 0xDC00)] else none

/-- `os.fsencode`. -/
def fsencode (text : List CodePoint) : Option (List UInt8) := (text.mapM fsencodeChar).map List.flatten

theorem fsencode_cons (c : CodePoint) (text : List CodePoint) :
    fsencode (c :: text) = (fsencodeChar c).bind fun bytes => (fsencode text).map (bytes ++ ·) := by
  rw [fsencode, fsencode, List.mapM_cons]
  cases fsencodeChar c with
  | none => rfl
  | some bytes => cases text.mapM fsencodeChar <;> rfl

/-- Bytes of any kind come back. -/
theorem fsencode_fsdecode (bytes : List UInt8) : fsencode (fsdecode bytes) = some bytes := by
  induction hn : bytes.length using Nat.strongRecOn generalizing bytes with
  | _ n ih =>
    cases bytes with
    | nil => rw [fsdecode]; rfl
    | cons b rest =>
      rw [fsdecode]
      split
      · next c htake =>
        obtain ⟨tail, htail⟩ := eq_append_of_takeChar htake
        rw [fsencode_cons, fsencodeChar, scalar?_codePointOf, ih _ (hn ▸ length_drop_takeChar_lt htake) _ rfl,
          drop_of_takeChar htail, htail]
        rfl
      · next htake =>
        have hb := not_ascii_of_takeChar_eq_none htake
        have hlt := b.toNat_lt
        have hval : (codePoint (0xDC00 + b.toNat)).val = 0xDC00 + b.toNat := codePoint_val (by omega)
        have hnone : scalar? (codePoint (0xDC00 + b.toNat)) = none := by
          rw [scalar?, dif_neg]
          simp only [Nat.isValidChar, hval]
          omega
        rw [fsencode_cons, fsencodeChar, hnone, ih _ (hn ▸ Nat.lt_succ_self _) rest rfl]
        simp only [hval]
        rw [if_pos (by omega), Nat.add_sub_cancel_left, UInt8.ofNat_toNat]
        rfl

end MinionAgent
