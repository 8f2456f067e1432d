import Mathlib.Logic.Function.Basic

/-!
# MinionAgent.Library.DecimalUnits

The decimal digits of a number, in UTF-16 code units: they are those of `0` to `9`,
and the number is read back from them.
-/

namespace DecimalUnits

/-- The digits of a number. -/
def digits (n : Nat) : List UInt16 := (Nat.toDigits 10 n).map fun c => UInt16.ofNat c.toNat

theorem toNat_digit {c : Char} (h : c.isDigit = true) :
    (UInt16.ofNat c.toNat).toNat = c.toNat ∧ 48 ≤ c.toNat ∧ c.toNat ≤ 57 := by
  have hrange : 48 ≤ c.toNat ∧ c.toNat ≤ 57 := by
    simpa [Char.isDigit, UInt32.le_iff_toNat_le] using h
  refine ⟨?_, hrange⟩
  simp
  omega

/-- The units of a number are those of digits. -/
theorem mem_digits {n : Nat} {u : UInt16} (h : u ∈ digits n) : 48 ≤ u.toNat ∧ u.toNat ≤ 57 := by
  obtain ⟨c, hc, rfl⟩ := List.mem_map.mp h
  obtain ⟨heq, hrange⟩ := toNat_digit (Nat.isDigit_of_mem_toDigits (by omega) (by omega) hc)
  rwa [heq]

/-- The number is read back. -/
theorem ofDigitChars_digits (n : Nat) :
    Nat.ofDigitChars 10 ((digits n).map fun u => Char.ofNat u.toNat) 0 = n := by
  have hdigits : (digits n).map (fun u => Char.ofNat u.toNat) = Nat.toDigits 10 n := by
    rw [digits, List.map_map]
    refine (List.map_congr_left fun c hc => ?_).trans (List.map_id _)
    have heq := (toNat_digit (Nat.isDigit_of_mem_toDigits (by omega) (by omega) hc)).1
    rw [Function.comp_apply, heq, Char.ofNat_toNat]
    rfl
  rw [hdigits, Nat.ofDigitChars_toDigits (by omega) (by omega)]

theorem digits_injective : Function.Injective digits := by
  intro n m h
  rw [← ofDigitChars_digits n, h, ofDigitChars_digits m]

end DecimalUnits
