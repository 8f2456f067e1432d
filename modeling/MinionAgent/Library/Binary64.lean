import Mathlib.Data.Int.Log
import Mathlib.Data.Rat.Floor
import Mathlib.Tactic.Linarith
import Mathlib.Tactic.Positivity
import Mathlib.Tactic.NormNum
import Mathlib.Tactic.SplitIfs

/-!
# MinionAgent.Library.Binary64

Binary double-precision numbers by the rationals they denote.  Positive and
negative zero are one number.

* `round` — the double nearest to a rational, ties to even;
* `round_int` — integers below 2⁵³ are doubles;
* `le_round`, `round_nonpos` — what rounding keeps of the order.
-/

/-- A double: NaN, an infinity, or a rational. -/
inductive Binary64
  | nan
  | infinite (negative : Bool)
  | finite (value : ℚ)
deriving DecidableEq

namespace Binary64

/-! ## Rounding -/

/-- The nearest integer, ties to even. -/
def roundHalfEven (q : ℚ) : ℤ :=
  let floor := ⌊q⌋
  if q - floor < 1 / 2 then floor
  else if 1 / 2 < q - floor then floor + 1
  else if floor % 2 = 0 then floor
  else floor + 1

/-- The exponent of the last place of the doubles around a rational. -/
def lastPlace (q : ℚ) : ℤ := max (Int.log 2 |q| - 52) (-1074)

/-- The rational with its last place rounded. -/
def rounded (q : ℚ) : ℚ := roundHalfEven (q / 2 ^ lastPlace q) * 2 ^ lastPlace q

/-- The double nearest to a rational. -/
def round (q : ℚ) : Binary64 :=
  if 2 ^ 1024 ≤ |rounded q| then .infinite (decide (rounded q < 0)) else .finite (rounded q)

theorem roundHalfEven_intCast (n : ℤ) : roundHalfEven n = n := by
  simp [roundHalfEven]

theorem floor_le_roundHalfEven (q : ℚ) : ⌊q⌋ ≤ roundHalfEven q := by
  simp only [roundHalfEven]
  split_ifs <;> omega

/-- Rounding does not pass an integer. -/
theorem le_roundHalfEven {n : ℤ} {q : ℚ} (h : (n : ℚ) ≤ q) : n ≤ roundHalfEven q :=
  (Int.le_floor.mpr h).trans (floor_le_roundHalfEven q)

theorem roundHalfEven_le {n : ℤ} {q : ℚ} (h : q ≤ n) : roundHalfEven q ≤ n := by
  rcases lt_or_eq_of_le h with hlt | rfl
  · have hfloor : ⌊q⌋ < n := Int.floor_lt.mpr hlt
    simp only [roundHalfEven]
    split_ifs <;> omega
  · exact le_of_eq (roundHalfEven_intCast n)

theorem two_zpow_pos (e : ℤ) : (0 : ℚ) < 2 ^ e := zpow_pos (by norm_num) e

/-- Integers below 2⁵³ have no place to round. -/
theorem rounded_int {n : ℤ} (h : |n| < 2 ^ 53) : rounded n = n := by
  have hplace : lastPlace n ≤ 0 := by
    rw [lastPlace, max_le_iff]
    refine ⟨?_, by norm_num⟩
    rcases eq_or_ne n 0 with rfl | hne
    · simp
    · have hpos : (0 : ℚ) < |(n : ℚ)| := by
        rw [abs_pos]
        exact_mod_cast hne
      have hlt : |(n : ℚ)| < (2 : ℕ) ^ (53 : ℤ) := by
        have hcast : |(n : ℚ)| < 2 ^ 53 := by exact_mod_cast h
        norm_num at hcast ⊢
        exact hcast
      have hlog := (Int.lt_zpow_iff_log_lt (by norm_num) hpos).mp hlt
      omega
  obtain ⟨k, hk⟩ : ∃ k : ℕ, lastPlace n = -(k : ℤ) := ⟨(-lastPlace n).toNat, by omega⟩
  have hwhole : (n : ℚ) / 2 ^ lastPlace n = ((n * 2 ^ k : ℤ) : ℚ) := by
    rw [hk, zpow_neg, zpow_natCast, div_inv_eq_mul]
    push_cast
    rfl
  rw [rounded, hwhole, roundHalfEven_intCast, hk, zpow_neg, zpow_natCast]
  push_cast
  rw [mul_assoc, mul_inv_cancel₀ (by positivity), mul_one]

theorem round_int {n : ℤ} (h : |n| < 2 ^ 53) : round n = .finite n := by
  have hsmall : ¬ (2 : ℚ) ^ 1024 ≤ |(n : ℚ)| := by
    have hcast : |(n : ℚ)| < 2 ^ 53 := by exact_mod_cast h
    have hpow : (2 : ℚ) ^ 53 ≤ 2 ^ 1024 := pow_le_pow_right₀ (by norm_num) (by norm_num)
    exact not_le.mpr (hcast.trans_le hpow)
  rw [round, rounded_int h, if_neg hsmall]

/-- What is at least 2⁵³ stays so. -/
theorem le_rounded {q : ℚ} (h : 2 ^ 53 ≤ q) : 2 ^ 53 ≤ rounded q := by
  have hpos : 0 < q := lt_of_lt_of_le (by norm_num) h
  have habs : |q| = q := abs_of_pos hpos
  have hlog : 53 ≤ Int.log 2 q := by
    refine (Int.zpow_le_iff_le_log (by norm_num) hpos).mp ?_
    norm_num at h ⊢
    exact h
  have hplace : lastPlace q = Int.log 2 q - 52 := by
    rw [lastPlace, habs]
    omega
  have hself : (2 : ℚ) ^ Int.log 2 q ≤ q := by
    have := Int.zpow_log_le_self (b := 2) (by norm_num) hpos
    exact_mod_cast this
  have hscaled : (((2 ^ 52 : ℤ)) : ℚ) ≤ q / 2 ^ lastPlace q := by
    rw [le_div_iff₀ (two_zpow_pos _), hplace]
    calc
      (((2 ^ 52 : ℤ)) : ℚ) * 2 ^ (Int.log 2 q - 52) = 2 ^ (52 : ℤ) * 2 ^ (Int.log 2 q - 52) := by norm_num
      _ = 2 ^ Int.log 2 q := by rw [← zpow_add₀ (by norm_num)]; congr 1; omega
      _ ≤ q := hself
  have hround : ((2 ^ 52 : ℤ) : ℚ) ≤ roundHalfEven (q / 2 ^ lastPlace q) := by
    exact_mod_cast le_roundHalfEven hscaled
  calc
    (2 : ℚ) ^ 53 = 2 ^ (53 : ℤ) := by norm_num
    _ ≤ 2 ^ Int.log 2 q := zpow_le_zpow_right₀ (by norm_num) hlog
    _ = ((2 ^ 52 : ℤ) : ℚ) * 2 ^ lastPlace q := by
      have hcast : ((2 ^ 52 : ℤ) : ℚ) = 2 ^ (52 : ℤ) := by norm_num
      rw [hcast, ← zpow_add₀ (by norm_num), hplace]
      congr 1
      omega
    _ ≤ rounded q := mul_le_mul_of_nonneg_right hround (two_zpow_pos _).le

theorem rounded_nonpos {q : ℚ} (h : q ≤ 0) : rounded q ≤ 0 := by
  have hscaled : q / 2 ^ lastPlace q ≤ ((0 : ℤ) : ℚ) := by
    rw [div_le_iff₀ (two_zpow_pos _)]
    simpa using h
  have hround : (roundHalfEven (q / 2 ^ lastPlace q) : ℚ) ≤ 0 := by exact_mod_cast roundHalfEven_le hscaled
  exact mul_nonpos_of_nonpos_of_nonneg hround (two_zpow_pos _).le

theorem round_nonpos {q : ℚ} (h : q ≤ 0) : round q = .infinite true ∨ ∃ v ≤ 0, round q = .finite v := by
  have hle := rounded_nonpos h
  rw [round]
  split_ifs with hbig
  · have hneg : rounded q < 0 := by
      refine lt_of_le_of_ne hle fun hzero => ?_
      rw [hzero, abs_zero] at hbig
      exact absurd hbig (not_le.mpr (by positivity))
    exact Or.inl (by rw [decide_eq_true hneg])
  · exact Or.inr ⟨rounded q, hle, rfl⟩

theorem le_round {q : ℚ} (h : 2 ^ 53 ≤ q) : round q = .infinite false ∨ ∃ v, 2 ^ 53 ≤ v ∧ round q = .finite v := by
  have hle := le_rounded h
  rw [round]
  split_ifs with hbig
  · have hpos : ¬ rounded q < 0 := not_lt.mpr (le_trans (by norm_num) hle)
    exact Or.inl (by rw [decide_eq_false hpos])
  · exact Or.inr ⟨rounded q, hle, rfl⟩

/-! ## Arithmetic and order -/

def neg : Binary64 → Binary64
  | nan => nan
  | infinite negative => infinite (!negative)
  | finite q => finite (-q)

def add : Binary64 → Binary64 → Binary64
  | nan, _ | _, nan => nan
  | infinite a, infinite b => if a = b then infinite a else nan
  | infinite a, finite _ => infinite a
  | finite _, infinite b => infinite b
  | finite p, finite q => round (p + q)

def sub (x y : Binary64) : Binary64 := add x (neg y)

/-- `x <= y`; nothing is in order with NaN. -/
def le : Binary64 → Binary64 → Bool
  | nan, _ | _, nan => false
  | infinite true, _ => true
  | _, infinite false => true
  | infinite false, _ => false
  | _, infinite true => false
  | finite p, finite q => decide (p ≤ q)

/-- `x < y`. -/
def lt (x y : Binary64) : Bool := le x y && !le y x

/-- An integer as a double. -/
def ofInt (n : ℤ) : Binary64 := round n

@[simp] theorem le_finite (p q : ℚ) : le (finite p) (finite q) = decide (p ≤ q) := rfl

@[simp] theorem lt_finite (p q : ℚ) : lt (finite p) (finite q) = decide (p < q) := by
  by_cases h : p < q
  · simp [lt, h, h.le, h.not_ge]
  · simp [lt, h, not_lt.mp h]

/-- The sum of small integers is exact. -/
theorem add_int {m n : ℤ} (h : |m + n| < 2 ^ 53) : add (finite m) (finite n) = finite ((m + n : ℤ) : ℚ) := by
  have hround := round_int h
  rw [add, ← hround]
  congr 1
  push_cast
  rfl

end Binary64
