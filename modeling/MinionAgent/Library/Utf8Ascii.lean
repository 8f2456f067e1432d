import MinionAgent.Library.Utf8

/-!
# MinionAgent.Library.Utf8Ascii

ASCII bytes in the streaming decoder.

* `decodeUtf8_append_ascii` — a text is decoded alone before and behind an
  ASCII byte;
* `ascii_mem_of_mem_decodeUtf8` — an ASCII character comes from its byte.
-/

namespace MinionAgent

namespace Utf8Decoder

/-- What a decoder inside a character keeps: the range of the next byte is one
of continuation bytes, and the character is not ASCII. -/
structure Wide (d : Utf8Decoder) : Prop where
  lower : 0x80 ≤ d.lower
  upper : d.upper ≤ 0xBF
  last : d.needed = 1 → 2 ≤ d.codePoint
  before : 2 ≤ d.needed → 2 ≤ d.codePoint * 0x40 + d.lower % 0x40

theorem Wide.empty : Wide {} := ⟨by decide, by decide, by simp, by simp⟩

theorem wide_start (b : Nat) : Wide (start b).2 := by
  unfold start
  split
  · exact Wide.empty
  · split
    · exact ⟨by simp, by simp, fun _ => by simp only; omega, by simp⟩
    · split
      · refine ⟨?_, ?_, by simp, fun _ => ?_⟩ <;> simp only <;> split <;> omega
      · split
        · refine ⟨?_, ?_, by simp, fun _ => ?_⟩ <;> simp only <;> split <;> omega
        · exact Wide.empty

variable {d : Utf8Decoder}

theorem Wide.step (h : Wide d) (b : UInt8) : Wide (d.step b).2 := by
  obtain ⟨hlower, hupper, hlast, hbefore⟩ := h
  unfold Utf8Decoder.step
  split
  · exact wide_start _
  · split
    · exact wide_start _
    · next hinside =>
      split
      · exact Wide.empty
      · refine ⟨by simp, by simp, fun hone => ?_, fun htwo => ?_⟩ <;> simp only at * <;> omega

theorem Wide.feed (h : Wide d) (bytes : List UInt8) : Wide (d.feed bytes).2 := by
  induction bytes generalizing d with
  | nil => exact h
  | cons b bytes ih => exact ih (h.step b)

/-- An ASCII byte ends what comes before it. -/
theorem Wide.step_ascii (h : Wide d) {b : UInt8} (hb : b.toNat < 0x80) :
    d.step b = (d.flush ++ [Char.ofNat b.toNat], {}) := by
  have hstart : start b.toNat = ([Char.ofNat b.toNat], {}) := if_pos (by omega)
  have hlower := h.lower
  unfold Utf8Decoder.step flush
  split
  · exact hstart
  · rw [if_pos (.inl (by omega)), hstart]
    rfl

theorem toNat_ofNat (n : Nat) : (Char.ofNat n).toNat = if n.isValidChar then n else 0 := by
  by_cases h : n.isValidChar
  · rw [Char.ofNat, dif_pos h, if_pos h]
    rfl
  · rw [Char.ofNat, dif_neg h, if_neg h]
    rfl

/-- A character of a number that is not ASCII. -/
theorem ofNat_ne {k n : Nat} (hk : 0 < k) (hk' : k < 0x80) (hn : 0x80 ≤ n) : Char.ofNat n ≠ Char.ofNat k := by
  intro heq
  have htoNat := congrArg Char.toNat heq
  rw [toNat_ofNat, toNat_ofNat, if_pos (show Nat.isValidChar k from .inl (by omega))] at htoNat
  split at htoNat <;> omega

theorem mem_start {k b : Nat} (hk : 0 < k) (hk' : k < 0x80) (h : Char.ofNat k ∈ (start b).1) : b = k := by
  unfold start at h
  split at h
  · next hb =>
    have htoNat := congrArg Char.toNat (List.mem_singleton.mp h)
    rw [toNat_ofNat, toNat_ofNat, if_pos (show Nat.isValidChar k from .inl (by omega)),
      if_pos (show Nat.isValidChar b from .inl (by omega))] at htoNat
    exact htoNat.symm
  · split at h
    · cases h
    · split at h
      · cases h
      · split at h
        · cases h
        · exact absurd (List.mem_singleton.mp h).symm (ofNat_ne hk hk' (by decide))

theorem Wide.mem_step (h : Wide d) {k : Nat} (hk : 0 < k) (hk' : k < 0x80) {b : UInt8}
    (hmem : Char.ofNat k ∈ (d.step b).1) : b.toNat = k := by
  unfold Utf8Decoder.step at hmem
  split at hmem
  · exact mem_start hk hk' hmem
  · split at hmem
    · rcases List.mem_cons.mp hmem with heq | hmem
      · exact absurd heq.symm (ofNat_ne hk hk' (by decide))
      · exact mem_start hk hk' hmem
    · split at hmem
      · next hone =>
        have hlast := h.last hone
        exact absurd (List.mem_singleton.mp hmem).symm (ofNat_ne hk hk' (by omega))
      · cases hmem

theorem Wide.mem_feed (h : Wide d) {k : Nat} (hk : 0 < k) (hk' : k < 0x80) {bytes : List UInt8}
    (hmem : Char.ofNat k ∈ (d.feed bytes).1) : ∃ b ∈ bytes, b.toNat = k := by
  induction bytes generalizing d with
  | nil => cases hmem
  | cons b bytes ih =>
    rcases List.mem_append.mp hmem with hmem | hmem
    · exact ⟨b, List.mem_cons_self .., h.mem_step hk hk' hmem⟩
    · obtain ⟨b', hb', heq⟩ := ih (h.step b) hmem
      exact ⟨b', List.mem_cons_of_mem _ hb', heq⟩

/-- A byte gives a character, or is inside one. -/
theorem step_ne_nil (d : Utf8Decoder) (b : UInt8) : (d.step b).1 ≠ [] ∨ (d.step b).2.needed ≠ 0 := by
  have hstart : (start b.toNat).1 ≠ [] ∨ (start b.toNat).2.needed ≠ 0 := by
    unfold start
    split <;> [skip; split <;> [skip; split <;> [skip; split]]] <;> simp
  unfold step
  split
  · exact hstart
  · split
    · exact .inl (by simp)
    · split
      · exact .inl (by simp)
      · exact .inr (by simp only; omega)

end Utf8Decoder

open Utf8Decoder (Wide)

theorem decodeUtf8_append_ascii (front rest : List UInt8) {b : UInt8} (hb : b.toNat < 0x80) :
    decodeUtf8 (front ++ b :: rest) = decodeUtf8 front ++ Char.ofNat b.toNat :: decodeUtf8 rest := by
  have hstep := (Wide.empty.feed front).step_ascii hb
  simp only [decodeUtf8, Utf8Decoder.feed_append, Utf8Decoder.feed, hstep]
  simp

theorem ascii_mem_of_mem_decodeUtf8 {k : Nat} (hk : 0 < k) (hk' : k < 0x80) {bytes : List UInt8}
    (h : Char.ofNat k ∈ decodeUtf8 bytes) : ∃ b ∈ bytes, b.toNat = k := by
  rcases List.mem_append.mp h with h | h
  · exact Wide.empty.mem_feed hk hk' h
  · unfold Utf8Decoder.flush at h
    split at h
    · cases h
    · exact absurd (List.mem_singleton.mp h).symm (Utf8Decoder.ofNat_ne hk hk' (by decide))

theorem decodeUtf8_ne_nil {bytes : List UInt8} (h : bytes ≠ []) : decodeUtf8 bytes ≠ [] := by
  rw [← List.dropLast_concat_getLast h, decodeUtf8, Utf8Decoder.feed_append]
  intro hnil
  simp only [Utf8Decoder.feed, List.append_nil, List.append_eq_nil_iff, Utf8Decoder.flush] at hnil
  obtain ⟨⟨-, hstep⟩, hflush⟩ := hnil
  rcases Utf8Decoder.step_ne_nil (Utf8Decoder.feed {} bytes.dropLast).2 (bytes.getLast h) with hne | hne
  · exact hne hstep
  · rw [if_neg hne] at hflush
    cases hflush

end MinionAgent
