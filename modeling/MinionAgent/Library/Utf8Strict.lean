import MinionAgent.Library.Utf8

/-!
# MinionAgent.Library.Utf8Strict

UTF-8 that is taken only when it is valid.

* `takeChar` — the character that bytes begin with;
* `decodeStrict_eq_some` — the strict decoder is the inverse of the encoder;
* `decodeUtf8_encodeUtf8` — and the replacing one of what is valid.
-/

namespace MinionAgent

/-- The character that bytes begin with, when they do. -/
def takeChar (bytes : List UInt8) : Option Char := bytes.toByteArray.utf8DecodeChar? 0

theorem takeChar_append (c : Char) (rest : List UInt8) : takeChar (String.utf8EncodeChar c ++ rest) = some c := by
  rw [takeChar, List.toByteArray_append]
  exact ByteArray.utf8DecodeChar?_utf8EncodeChar_append

theorem eq_append_of_takeChar {bytes : List UInt8} {c : Char} (h : takeChar bytes = some c) :
    ∃ rest, bytes = String.utf8EncodeChar c ++ rest := by
  obtain ⟨rest, hrest⟩ := ByteArray.exists_of_utf8DecodeChar?_eq_some h
  refine ⟨rest.data.toList, ?_⟩
  have hlist := congrArg (fun b : ByteArray => b.data.toList) hrest
  simpa using hlist

theorem takeChar_nil : takeChar [] = none := by
  cases h : takeChar [] with
  | none => rfl
  | some c =>
    obtain ⟨rest, hrest⟩ := eq_append_of_takeChar h
    have hlength := congrArg List.length hrest
    rw [List.length_append, String.length_utf8EncodeChar, List.length_nil] at hlength
    have := c.utf8Size_pos
    omega

theorem drop_of_takeChar {bytes rest : List UInt8} {c : Char} (h : bytes = String.utf8EncodeChar c ++ rest) :
    bytes.drop c.utf8Size = rest := by
  rw [h, ← String.length_utf8EncodeChar, List.drop_left]

theorem length_drop_takeChar_lt {bytes : List UInt8} {c : Char} (h : takeChar bytes = some c) :
    (bytes.drop c.utf8Size).length < bytes.length := by
  obtain ⟨rest, hrest⟩ := eq_append_of_takeChar h
  rw [drop_of_takeChar hrest, hrest, List.length_append, String.length_utf8EncodeChar]
  have := c.utf8Size_pos
  omega

/-- A byte that begins no character is not ASCII. -/
theorem not_ascii_of_takeChar_eq_none {b : UInt8} {rest : List UInt8} (h : takeChar (b :: rest) = none) :
    0x80 ≤ b.toNat := by
  by_contra hlt
  have hvalid : b.toNat.isValidChar := .inl (by omega)
  have hval : (Char.ofNat b.toNat).val.toNat = b.toNat := by
    rw [Char.ofNat, dif_pos hvalid]
    rfl
  have hencode : String.utf8EncodeChar (Char.ofNat b.toNat) = [b] := by
    simp only [String.utf8EncodeChar, hval, if_pos (show b.toNat ≤ 0x7F by omega), UInt8.ofNat_toNat]
  have htake := takeChar_append (Char.ofNat b.toNat) rest
  rw [hencode, List.singleton_append, h] at htake
  cases htake

/-! ## Strict -/

/-- The text of bytes that are valid UTF-8. -/
def decodeStrict (bytes : List UInt8) : Option (List Char) :=
  if bytes = [] then some []
  else
    match _h : takeChar bytes with
    | none => none
    | some c => (decodeStrict (bytes.drop c.utf8Size)).map (c :: ·)
termination_by bytes.length
decreasing_by exact length_drop_takeChar_lt _h

theorem decodeStrict_nil : decodeStrict [] = some [] := by
  rw [decodeStrict, if_pos rfl]

theorem decodeStrict_of_takeChar {bytes rest : List UInt8} {c : Char} (h : bytes = String.utf8EncodeChar c ++ rest) :
    decodeStrict bytes = (decodeStrict rest).map (c :: ·) := by
  have htake : takeChar bytes = some c := h ▸ takeChar_append c rest
  have hne : bytes ≠ [] := by
    rintro rfl
    rw [takeChar_nil] at htake
    cases htake
  rw [decodeStrict, if_neg hne]
  split
  · simp_all
  · next c' hc' =>
    obtain rfl : c = c' := by simpa [htake] using hc'
    rw [drop_of_takeChar h]

theorem decodeStrict_of_none {b : UInt8} {rest : List UInt8} (h : takeChar (b :: rest) = none) :
    decodeStrict (b :: rest) = none := by
  rw [decodeStrict, if_neg (by simp)]
  split
  · rfl
  · simp_all

theorem decodeStrict_encodeUtf8 (text : List Char) : decodeStrict (encodeUtf8 text) = some text := by
  induction text with
  | nil => exact decodeStrict_nil
  | cons c text ih =>
    rw [@decodeStrict_of_takeChar (encodeUtf8 (c :: text)) (encodeUtf8 text) c rfl, ih]
    rfl

/-- The strict decoder takes what the encoder gives. -/
theorem decodeStrict_eq_some {bytes : List UInt8} {text : List Char} :
    decodeStrict bytes = some text ↔ bytes = encodeUtf8 text := by
  refine ⟨fun h => ?_, fun h => h ▸ decodeStrict_encodeUtf8 text⟩
  induction hn : bytes.length using Nat.strongRecOn generalizing bytes text with
  | _ n ih =>
    cases bytes with
    | nil =>
      rw [decodeStrict_nil] at h
      exact Option.some.inj h ▸ rfl
    | cons b bytes =>
      cases htake : takeChar (b :: bytes) with
      | none =>
        rw [decodeStrict_of_none htake] at h
        cases h
      | some c =>
        obtain ⟨rest, hrest⟩ := eq_append_of_takeChar htake
        rw [decodeStrict_of_takeChar hrest] at h
        obtain ⟨tail, htail, rfl⟩ := Option.map_eq_some_iff.mp h
        have hlt := drop_of_takeChar hrest ▸ length_drop_takeChar_lt htake
        rw [hrest, ih _ (hn ▸ hlt) htail rfl]
        rfl

/-! ## With replacement -/

namespace Utf8Decoder

/-- A byte that goes on with a character. -/
theorem step_continue {d : Utf8Decoder} {n : Nat} (hneeded : d.needed ≠ 0) (hlower : d.lower ≤ n) (hupper : n ≤ d.upper)
    (hn : n < 0x100) :
    d.step (UInt8.ofNat n) =
      if d.needed = 1 then ([Char.ofNat (d.codePoint * 0x40 + n % 0x40)], {})
      else ([], { needed := d.needed - 1, codePoint := d.codePoint * 0x40 + n % 0x40 }) := by
  have hbyte : (UInt8.ofNat n).toNat = n := by rw [UInt8.toNat_ofNat', Nat.mod_eq_of_lt hn]
  rw [step, if_neg hneeded, hbyte, if_neg (by omega)]

theorem step_start {n : Nat} (hn : n < 0x100) : step {} (UInt8.ofNat n) = start n := by
  rw [step, if_pos rfl, UInt8.toNat_ofNat', Nat.mod_eq_of_lt hn]

/-- The bytes of a character give it. -/
theorem feed_utf8EncodeChar (c : Char) : feed {} (String.utf8EncodeChar c) = ([c], {}) := by
  have hvalid : c.val.toNat < 0xD800 ∨ 0xDFFF < c.val.toNat ∧ c.val.toNat < 0x110000 := c.valid
  have hchar {n : Nat} (h : n = c.val.toNat) : Char.ofNat n = c := by
    rw [h]
    exact Char.ofNat_toNat c
  fun_cases String.utf8EncodeChar c with
  | case1 v hv =>
    change v < 0xD800 ∨ 0xDFFF < v ∧ v < 0x110000 at hvalid
    simp only [feed, step_start (show v < 0x100 by omega), start, if_pos hv, List.append_nil]
    rw [hchar rfl]
  | case2 v hv hv' =>
    simp only [feed, step_start (show v / 64 % 0x20 + 0xC0 < 0x100 by omega), start]
    rw [if_neg (by omega), if_pos (by omega), step_continue (by simp) (by simp) (by simp; omega) (by omega)]
    simp only [if_true, List.nil_append, List.append_nil]
    rw [hchar (by change _ = v; omega)]
  | case3 v hv hv' hv'' =>
    change v < 0xD800 ∨ 0xDFFF < v ∧ v < 0x110000 at hvalid
    simp only [feed, step_start (show v / 4096 % 0x10 + 0xE0 < 0x100 by omega), start]
    rw [if_neg (by omega), if_neg (by omega), if_pos (by omega)]
    rw [step_continue (by simp) (by simp only; split <;> omega) (by simp only; split <;> omega) (by omega)]
    simp only [show ¬ (2 = 1) by decide, if_false, List.nil_append]
    rw [step_continue (by simp) (by simp) (by simp; omega) (by omega)]
    simp only [if_true, List.append_nil]
    rw [hchar (by change _ = v; omega)]
  | case4 v hv hv' hv'' =>
    change v < 0xD800 ∨ 0xDFFF < v ∧ v < 0x110000 at hvalid
    simp only [feed, step_start (show v / 262144 % 0x08 + 0xF0 < 0x100 by omega), start]
    rw [if_neg (by omega), if_neg (by omega), if_neg (by omega), if_pos (by omega)]
    rw [step_continue (by simp) (by simp only; split <;> omega) (by simp only; split <;> omega) (by omega)]
    simp only [show ¬ (3 = 1) by decide, if_false, List.nil_append]
    rw [step_continue (by simp) (by simp) (by simp; omega) (by omega)]
    simp only [show ¬ (3 - 1 = 1) by decide, if_false, List.nil_append]
    rw [step_continue (by simp) (by simp) (by simp; omega) (by omega)]
    simp only [if_true, List.append_nil]
    rw [hchar (by change _ = v; omega)]

end Utf8Decoder

/-- The replacing decoder is the inverse of the encoder too. -/
theorem decodeUtf8_encodeUtf8 (text : List Char) : decodeUtf8 (encodeUtf8 text) = text := by
  have hfeed : Utf8Decoder.feed {} (encodeUtf8 text) = (text, {}) := by
    induction text with
    | nil => rfl
    | cons c text ih =>
      rw [encodeUtf8, List.flatMap_cons, ← encodeUtf8, Utf8Decoder.feed_append, Utf8Decoder.feed_utf8EncodeChar, ih]
      rfl
  rw [decodeUtf8, hfeed]
  exact List.append_nil text

end MinionAgent
