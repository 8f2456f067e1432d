import Mathlib.Data.Int.Notation
import Mathlib.Data.List.Basic
import Mathlib.Tactic.SplitIfs

/-!
# MinionAgent.Library.EcmaNumber

How ECMAScript writes a positive number in decimal (`Number::toString`), from
its shortest digits `s` and the exponent `n` of its first digit: the number is
`s · 10 ^ (n - k)` for `k` digits.

* `toText` — the notation;
* `caseText_eq_toText` — the five cases that a program writes it in.
-/

namespace Ecma

/-- The decimal digits of a natural number. -/
def natText (n : Nat) : List Char := Nat.toDigits 10 n

/-- The exponent part: a sign and at least one digit. -/
def exponentText (e : ℤ) : List Char := 'e' :: (if 0 ≤ e then '+' else '-') :: natText e.natAbs

/-- The number without an exponent. -/
def fixedNotation (digits : List Char) (n : ℤ) : List Char :=
  if digits.length ≤ n then digits ++ List.replicate (n - digits.length).toNat '0'
  else if 0 < n then digits.take n.toNat ++ '.' :: digits.drop n.toNat
  else '0' :: '.' :: (List.replicate (-n).toNat '0' ++ digits)

/-- The number with one digit before the point, if any, and an exponent. -/
def exponentialNotation (digits : List Char) (n : ℤ) : List Char :=
  match digits with
  | [digit] => digit :: exponentText (n - 1)
  | digits => digits.take 1 ++ '.' :: digits.drop 1 ++ exponentText (n - 1)

/-- `Number::toString` of a positive number, radix 10. -/
def toText (digits : List Char) (n : ℤ) : List Char :=
  if -6 < n ∧ n ≤ 21 then fixedNotation digits n else exponentialNotation digits n

/-- The same, case by case. -/
def caseText (digits : List Char) (n : ℤ) : List Char :=
  let k : ℤ := digits.length
  if k ≤ n ∧ n ≤ 21 then digits ++ List.replicate (n - k).toNat '0'
  else if 0 < n ∧ n ≤ 21 then digits.take n.toNat ++ ['.'] ++ digits.drop n.toNat
  else if -6 < n ∧ n ≤ 0 then "0.".toList ++ List.replicate (-n).toNat '0' ++ digits
  else
    let e := n - 1
    let exp := (if 0 ≤ e then ['+'] else ['-']) ++ natText e.natAbs
    if k = 1 then digits ++ ['e'] ++ exp else digits.take 1 ++ ['.'] ++ digits.drop 1 ++ ['e'] ++ exp

theorem caseText_eq_toText (digits : List Char) (n : ℤ) : caseText digits n = toText digits n := by
  simp only [caseText, toText]
  have hlength : (0 : ℤ) ≤ digits.length := Int.natCast_nonneg _
  by_cases hrange : -6 < n ∧ n ≤ 21
  · simp only [if_pos hrange, fixedNotation]
    by_cases hwhole : (digits.length : ℤ) ≤ n
    · rw [if_pos ⟨hwhole, hrange.2⟩, if_pos hwhole]
    · rw [if_neg fun h => hwhole h.1, if_neg hwhole]
      by_cases hpoint : 0 < n
      · rw [if_pos ⟨hpoint, hrange.2⟩, if_pos hpoint]
        simp
      · rw [if_neg fun h => hpoint h.1, if_neg hpoint, if_pos ⟨hrange.1, by omega⟩]
        rfl
  · simp only [if_neg hrange]
    rw [if_neg fun h => hrange ⟨by omega, h.2⟩, if_neg fun h => hrange ⟨by omega, h.2⟩,
      if_neg fun h => hrange ⟨h.1, by omega⟩]
    have hsign : (if 0 ≤ n - 1 then ['+'] else ['-']) ++ natText (n - 1).natAbs =
        (if 0 ≤ n - 1 then '+' else '-') :: natText (n - 1).natAbs := by
      split_ifs <;> rfl
    rw [hsign]
    match digits with
    | [] => simp [exponentialNotation, exponentText]
    | [digit] => simp [exponentialNotation, exponentText]
    | first :: second :: rest =>
      have hmany : ¬ ((first :: second :: rest).length : ℤ) = 1 := by
        simp only [List.length_cons]
        omega
      rw [if_neg hmany]
      simp [exponentialNotation, exponentText]

end Ecma
