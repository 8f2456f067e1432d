import Mathlib.Algebra.GroupWithZero.Nat
import Mathlib.Data.List.Basic

/-!
# MinionAgent.Library.Utf8

UTF-8 texts: their size, the cut at a byte offset, and the streaming decoder
that replaces what is not UTF-8.

* `encodeUtf8_cutBytes` — the cut at the first character boundary from a byte
  on, compared with the loop over bytes that computes it;
* `Utf8Decoder.feed_append` — the decoder does not depend on how its input is
  split.
-/

namespace MinionAgent

/-! ## Size -/

/-- The length of a text in UTF-8. -/
def utf8Len (text : List Char) : Nat := (text.map Char.utf8Size).sum

@[simp] theorem utf8Len_nil : utf8Len [] = 0 := rfl

@[simp] theorem utf8Len_cons (c : Char) (text : List Char) : utf8Len (c :: text) = c.utf8Size + utf8Len text := rfl

@[simp] theorem utf8Len_append (text₁ text₂ : List Char) :
    utf8Len (text₁ ++ text₂) = utf8Len text₁ + utf8Len text₂ := by
  simp [utf8Len]

theorem utf8Len_pos {text : List Char} (h : text ≠ []) : 0 < utf8Len text := by
  obtain ⟨c, rest, rfl⟩ := List.exists_cons_of_ne_nil h
  have hc := c.utf8Size_pos
  rw [utf8Len_cons]
  omega

/-! ## The cut at a byte -/

/-- A text cut at its first character boundary at or after a byte offset. -/
def cutBytes : Nat → List Char → List Char × List Char
  | 0, text => ([], text)
  | _ + 1, [] => ([], [])
  | n + 1, c :: text => (c :: (cutBytes (n + 1 - c.utf8Size) text).1, (cutBytes (n + 1 - c.utf8Size) text).2)

@[simp] theorem cutBytes_append (n : Nat) (text : List Char) : (cutBytes n text).1 ++ (cutBytes n text).2 = text := by
  induction n, text using cutBytes.induct with
  | case1 text => simp [cutBytes]
  | case2 n => simp [cutBytes]
  | case3 n c text ih => simpa [cutBytes] using ih

/-- The boundary is less than a character past the offset. -/
theorem utf8Len_cutBytes (n : Nat) (text : List Char) : utf8Len text ≤ utf8Len (cutBytes n text).2 + n + 3 := by
  induction n, text using cutBytes.induct with
  | case1 text => simp [cutBytes]
  | case2 n => simp [cutBytes]
  | case3 n c text ih =>
    have hpos := c.utf8Size_pos
    have hle := c.utf8Size_le_four
    simp only [cutBytes, utf8Len_cons]
    by_cases hc : c.utf8Size ≤ n + 1
    · omega
    · have hzero : n + 1 - c.utf8Size = 0 := by omega
      simp only [hzero, cutBytes]
      omega

theorem cutBytes_fst_ne_nil {n : Nat} {text : List Char} (hn : 0 < n) (h : text ≠ []) : (cutBytes n text).1 ≠ [] := by
  obtain ⟨c, rest, rfl⟩ := List.exists_cons_of_ne_nil h
  obtain ⟨m, rfl⟩ := Nat.exists_eq_succ_of_ne_zero (Nat.ne_of_gt hn)
  rw [cutBytes]
  exact List.cons_ne_nil _ _

/-- A cut behind a first part cuts the second one. -/
theorem cutBytes_snd_append (before text : List Char) (n : Nat) :
    (cutBytes (utf8Len before + n) (before ++ text)).2 = (cutBytes n text).2 := by
  induction before with
  | nil => simp
  | cons c before ih =>
    have hpos := c.utf8Size_pos
    obtain ⟨m, hm⟩ : ∃ m, utf8Len (c :: before) + n = m + 1 :=
      ⟨utf8Len (c :: before) + n - 1, by rw [utf8Len_cons]; omega⟩
    have hrest : m + 1 - c.utf8Size = utf8Len before + n := by
      rw [← hm, utf8Len_cons]
      omega
    rw [hm, List.cons_append, cutBytes, hrest, ih]

/-! ## Bytes -/

/-- `str.encode("utf-8")`. -/
def encodeUtf8 (text : List Char) : List UInt8 := text.flatMap String.utf8EncodeChar

/-- `(b & 0xC0) == 0x80`. -/
def isContinuationByte (b : UInt8) : Bool := b &&& 0xC0 == 0x80

theorem isContinuationByte_ofNat {n : Nat} (hn : n < 0x40) : isContinuationByte (UInt8.ofNat (n + 0x80)) = true := by
  revert n
  decide

theorem not_isContinuationByte_ofNat {n : Nat} (hn : n < 0x100) (h : n < 0x80 ∨ 0xC0 ≤ n) :
    isContinuationByte (UInt8.ofNat n) = false := by
  revert n
  decide +kernel

/-- A character is one byte that starts it and continuation bytes. -/
theorem exists_utf8EncodeChar (c : Char) :
    ∃ first rest, String.utf8EncodeChar c = first :: rest ∧ isContinuationByte first = false ∧
      ∀ b ∈ rest, isContinuationByte b = true := by
  have hval : c.val.toNat < 0x110000 := by
    have := c.valid
    simp only [UInt32.isValidChar, Nat.isValidChar] at this
    omega
  fun_cases String.utf8EncodeChar c with
  | case1 v hv => exact ⟨_, _, rfl, not_isContinuationByte_ofNat (by omega) (by omega), by simp⟩
  | case2 v _ hv =>
    refine ⟨_, _, rfl, not_isContinuationByte_ofNat (by omega) (by omega), ?_⟩
    simp only [List.mem_singleton, forall_eq]
    exact isContinuationByte_ofNat (by omega)
  | case3 v _ _ hv =>
    refine ⟨_, _, rfl, not_isContinuationByte_ofNat (by omega) (by omega), ?_⟩
    simp only [List.mem_cons, List.not_mem_nil, or_false, forall_eq_or_imp, forall_eq]
    exact ⟨isContinuationByte_ofNat (by omega), isContinuationByte_ofNat (by omega)⟩
  | case4 v _ _ hv =>
    refine ⟨_, _, rfl, not_isContinuationByte_ofNat (by omega) (by omega), ?_⟩
    simp only [List.mem_cons, List.not_mem_nil, or_false, forall_eq_or_imp, forall_eq]
    exact ⟨isContinuationByte_ofNat (by omega), isContinuationByte_ofNat (by omega),
      isContinuationByte_ofNat (by omega)⟩

theorem dropWhile_encodeUtf8 (text : List Char) : (encodeUtf8 text).dropWhile isContinuationByte = encodeUtf8 text := by
  cases text with
  | nil => rfl
  | cons c text =>
    obtain ⟨first, rest, hchar, hfirst, -⟩ := exists_utf8EncodeChar c
    rw [encodeUtf8, List.flatMap_cons, hchar, List.cons_append, List.dropWhile_cons_of_neg (by simp [hfirst])]

/-- The cut is where the loop over bytes stops that skips continuation bytes
from the offset on. -/
theorem encodeUtf8_cutBytes (n : Nat) (text : List Char) :
    encodeUtf8 (cutBytes n text).2 = ((encodeUtf8 text).drop n).dropWhile isContinuationByte := by
  induction n, text using cutBytes.induct with
  | case1 text => rw [cutBytes, List.drop_zero, dropWhile_encodeUtf8]
  | case2 n => rfl
  | case3 n c text ih =>
    have hsplit : encodeUtf8 (c :: text) = String.utf8EncodeChar c ++ encodeUtf8 text := rfl
    rw [cutBytes, ih, hsplit, List.drop_append, String.length_utf8EncodeChar]
    by_cases hc : c.utf8Size ≤ n + 1
    · have hchar : (String.utf8EncodeChar c).drop (n + 1) = [] :=
        List.drop_of_length_le (by rw [String.length_utf8EncodeChar]; exact hc)
      rw [hchar, List.nil_append]
    · -- the offset is inside the character, so its remaining bytes are skipped
      have hzero : n + 1 - c.utf8Size = 0 := by omega
      obtain ⟨first, rest, hchar, -, hrest⟩ := exists_utf8EncodeChar c
      have hskipped : ∀ b ∈ (String.utf8EncodeChar c).drop (n + 1), isContinuationByte b = true := by
        intro b hb
        rw [hchar, List.drop_succ_cons] at hb
        exact hrest b (List.mem_of_mem_drop hb)
      rw [hzero, List.drop_zero, List.dropWhile_append_of_pos hskipped]

/-! ## The streaming decoder -/

/-- A decoder inside a character: how many bytes it still needs, in which range
the next one is, and the code point so far. -/
structure Utf8Decoder where
  needed : Nat := 0
  lower : Nat := 0x80
  upper : Nat := 0xBF
  codePoint : Nat := 0
deriving DecidableEq

namespace Utf8Decoder

/-- The replacement character. -/
def replacement : Char := Char.ofNat 0xFFFD

/-- A byte between characters. -/
def start (b : Nat) : List Char × Utf8Decoder :=
  if b ≤ 0x7F then ([Char.ofNat b], {})
  else if 0xC2 ≤ b ∧ b ≤ 0xDF then ([], { needed := 1, codePoint := b % 0x20 })
  else if 0xE0 ≤ b ∧ b ≤ 0xEF then
    ([], { needed := 2, lower := if b = 0xE0 then 0xA0 else 0x80, upper := if b = 0xED then 0x9F else 0xBF
           codePoint := b % 0x10 })
  else if 0xF0 ≤ b ∧ b ≤ 0xF4 then
    ([], { needed := 3, lower := if b = 0xF0 then 0x90 else 0x80, upper := if b = 0xF4 then 0x8F else 0xBF
           codePoint := b % 0x08 })
  else ([replacement], {})

/-- One byte: the characters it completes.  A byte that cannot go on with the
character begins the next one. -/
def step (d : Utf8Decoder) (b : UInt8) : List Char × Utf8Decoder :=
  if d.needed = 0 then start b.toNat
  else if b.toNat < d.lower ∨ d.upper < b.toNat then
    (replacement :: (start b.toNat).1, (start b.toNat).2)
  else if d.needed = 1 then ([Char.ofNat (d.codePoint * 0x40 + b.toNat % 0x40)], {})
  else ([], { needed := d.needed - 1, codePoint := d.codePoint * 0x40 + b.toNat % 0x40 })

/-- The text of a chunk, and the decoder behind it. -/
def feed (d : Utf8Decoder) : List UInt8 → List Char × Utf8Decoder
  | [] => ([], d)
  | b :: bytes => ((d.step b).1 ++ ((d.step b).2.feed bytes).1, ((d.step b).2.feed bytes).2)

/-- The end of the input: an incomplete character is replaced. -/
def flush (d : Utf8Decoder) : List Char := if d.needed = 0 then [] else [replacement]

theorem feed_append (d : Utf8Decoder) (bytes₁ bytes₂ : List UInt8) :
    d.feed (bytes₁ ++ bytes₂) =
      ((d.feed bytes₁).1 ++ ((d.feed bytes₁).2.feed bytes₂).1, ((d.feed bytes₁).2.feed bytes₂).2) := by
  induction bytes₁ generalizing d with
  | nil => rfl
  | cons b bytes₁ ih => simp [feed, ih]

end Utf8Decoder

/-- The text of a whole stream. -/
def decodeUtf8 (bytes : List UInt8) : List Char :=
  ((Utf8Decoder.feed {} bytes).1) ++ (Utf8Decoder.feed {} bytes).2.flush

end MinionAgent
