import MinionAgent.Tools.ReadText
import Mathlib.Tactic.SplitIfs

/-!
# MinionAgent.Tools.ReadAgreement

Where the two bindings of `read` give the same text.

* `sliceIndex_eq`, `mathMin_eq`, `numberToString_eq` — their number functions
  agree;
* `formatSize_eq_iff` — their sizes agree except on a tie that the even digit
  takes down;
* `AgreeOn.readTextBy_eq_iff` — their texts agree where the sizes shown do;
* `showsLine_iff` — a size is shown of a line that alone exceeds the ceiling.

In Rust a library writes the numbers; it is used for what ECMAScript writes
(`WritesEcma`).
-/

namespace MinionAgent

open Ecma

/-! ## Numbers -/

/-- The library writes a number as ECMAScript does. -/
def WritesEcma (shortest : Shortest) (ryu : ℚ → List Char) : Prop :=
  ∀ q, q ≠ 0 → ryu q =
    (if q < 0 then ['-'] else []) ++ toText (shortest |q|).1 ((shortest |q|).2 + (shortest |q|).1.length)

theorem positiveToString_eq (shortest : Shortest) (q : ℚ) :
    Python.positiveToString shortest q = toText (shortest q).1 ((shortest q).2 + (shortest q).1.length) :=
  caseText_eq_toText _ _

theorem numberToString_eq {shortest : Shortest} {ryu : ℚ → List Char} (h : WritesEcma shortest ryu) :
    Rust.numberToString ryu = Python.numberToString shortest := by
  funext x
  match x with
  | .nan => rfl
  | .infinite false => rfl
  | .infinite true => rfl
  | .finite q =>
    show (if q = 0 then "0".toList else ryu q) = if q = 0 then "0".toList
      else if q < 0 then '-' :: Python.positiveToString shortest (-q) else Python.positiveToString shortest q
    by_cases hzero : q = 0
    · rw [if_pos hzero, if_pos hzero]
    · rw [if_neg hzero, if_neg hzero, h q hzero]
      by_cases hneg : q < 0
      · rw [if_pos hneg, if_pos hneg, positiveToString_eq, abs_of_neg hneg]
        rfl
      · rw [if_neg hneg, if_neg hneg, positiveToString_eq, abs_of_nonneg (not_lt.mp hneg)]
        rfl

/-- Two numbers are in order, one way or the other. -/
theorem le_eq_not_lt {a b : Binary64} (ha : a ≠ .nan) (hb : b ≠ .nan) : a.le b = !b.lt a := by
  match a, b with
  | .nan, _ => exact absurd rfl ha
  | _, .nan => exact absurd rfl hb
  | .infinite x, .infinite y => cases x <;> cases y <;> rfl
  | .infinite x, .finite q => cases x <;> rfl
  | .finite p, .infinite y => cases y <;> rfl
  | .finite p, .finite q =>
    rw [Binary64.le_finite, Binary64.lt_finite]
    by_cases h : p ≤ q
    · simp [h, not_lt.mpr h]
    · simp [h, not_le.mp h]

theorem mathMin_eq : Rust.jsMin = Python.mathMin := by
  funext a b
  unfold Rust.jsMin Python.mathMin Rust.f64Min
  split_ifs with hnan hlt hle hle
  · rfl
  · rw [le_eq_not_lt (fun h => hnan (Or.inl h)) (fun h => hnan (Or.inr h)), hlt] at hle
    cases hle
  · rfl
  · rfl
  · rw [le_eq_not_lt (fun h => hnan (Or.inl h)) (fun h => hnan (Or.inr h))] at hle
    simp [hlt] at hle

theorem mathMax_eq : Rust.jsMax = Python.mathMax := by
  funext a b
  unfold Rust.jsMax Python.mathMax Rust.f64Max
  split_ifs with hnan hlt hle hle
  · rfl
  · rw [le_eq_not_lt (fun h => hnan (Or.inr h)) (fun h => hnan (Or.inl h)), hlt] at hle
    cases hle
  · rfl
  · rfl
  · rw [le_eq_not_lt (fun h => hnan (Or.inr h)) (fun h => hnan (Or.inl h))] at hle
    simp [hlt] at hle

/-! ## Slices -/

theorem truncate_intCast (n : ℤ) : truncate n = n := by
  simp [truncate]

theorem asUsize_intCast {n : ℤ} {len : Nat} (hn : n ≤ len) (hlen : len < 2 ^ 53) :
    Rust.asUsize (.finite n) = n.toNat := by
  rw [Rust.asUsize, truncate_intCast]
  omega

/-- An index is clamped alike, for any number of lines that doubles can count. -/
theorem sliceIndex_eq (index : Binary64) {len : Nat} (hlen : len < 2 ^ 53) :
    Rust.sliceIndex index len = Python.relativeIndex index len := by
  match index with
  | .nan => rfl
  | .infinite false => rfl
  | .infinite true => rfl
  | .finite q =>
    have hint : Binary64.ofInt len = .finite ((len : ℤ) : ℚ) := Binary64.round_int (by
      rw [abs_of_nonneg (Int.natCast_nonneg len)]
      exact_mod_cast hlen)
    rw [Rust.sliceIndex, Python.relativeIndex, hint]
    generalize truncate q = w
    have hlt : (Binary64.finite (w : ℚ)).lt (.finite 0) = decide (w < 0) := by
      rw [Binary64.lt_finite]
      exact_mod_cast rfl
    simp only [hlt, decide_eq_true_eq]
    by_cases hneg : w < 0
    · rw [if_pos hneg, if_pos hneg]
      by_cases hsmall : |(len : ℤ) + w| < 2 ^ 53
      · rw [Binary64.add_int hsmall, mathMax_eq, Python.mathMax, if_neg (by simp), Binary64.le_finite]
        by_cases hle : (len : ℤ) + w < 0
        · have hcast : ¬ (0 : ℚ) ≤ (((len : ℤ) + w : ℤ) : ℚ) := not_le.mpr (by exact_mod_cast hle)
          rw [decide_eq_false hcast, if_neg Bool.false_ne_true, max_eq_right hle.le]
          rfl
        · have hcast : (0 : ℚ) ≤ (((len : ℤ) + w : ℤ) : ℚ) := by exact_mod_cast not_lt.mp hle
          rw [decide_eq_true hcast, if_pos rfl, asUsize_intCast (by omega) hlen, max_eq_left (not_lt.mp hle)]
      · -- far below the start: what rounding gives is not positive
        have hsum : (len : ℤ) + w ≤ 0 := by
          by_contra hpos
          rw [abs_of_pos (not_le.mp hpos)] at hsmall
          omega
        have hzero : Rust.asUsize (Rust.jsMax ((Binary64.finite ((len : ℤ) : ℚ)).add (.finite (w : ℚ)))
            (.finite 0)) = 0 := by
          have hround := Binary64.round_nonpos (q := (((len : ℤ) : ℚ) + w)) (by exact_mod_cast hsum)
          rw [Binary64.add, mathMax_eq, Python.mathMax]
          rcases hround with hinf | ⟨v, hv, hfin⟩
          · rw [hinf]
            rfl
          · rw [hfin, if_neg (by simp), Binary64.le_finite]
            by_cases hnonneg : 0 ≤ v
            · rw [decide_eq_true hnonneg, if_pos rfl, le_antisymm hv hnonneg]
              rfl
            · rw [decide_eq_false hnonneg, if_neg Bool.false_ne_true]
              rfl
        rw [hzero, max_eq_right hsum]
        rfl
    · rw [if_neg hneg, if_neg hneg, mathMin_eq, Python.mathMin, if_neg (by simp), Binary64.le_finite]
      by_cases hle : w ≤ len
      · have hcast : (w : ℚ) ≤ ((len : ℤ) : ℚ) := by exact_mod_cast hle
        rw [decide_eq_true hcast, if_pos rfl, asUsize_intCast hle hlen]
        omega
      · have hcast : ¬ (w : ℚ) ≤ ((len : ℤ) : ℚ) := not_le.mpr (by exact_mod_cast not_le.mp hle)
        rw [decide_eq_false hcast, if_neg Bool.false_ne_true, asUsize_intCast (le_refl _) hlen]
        omega

theorem jsSlice_eq {lines : List (List Char)} (hlen : lines.length < 2 ^ 53) (start : Binary64)
    (stop : Option Binary64) :
    Rust.jsSlice lines start stop = Python.jsSlice lines start stop := by
  have hslice : ∀ first last : Nat,
      (lines.take (max last first)).drop first = if first < last then (lines.take last).drop first else [] := by
    intro first last
    by_cases h : first < last
    · rw [if_pos h, max_eq_left h.le]
    · rw [if_neg h, max_eq_right (not_lt.mp h), List.drop_eq_nil_iff]
      exact (List.length_take_le _ _)
  cases stop with
  | none => simp only [Rust.jsSlice, Python.jsSlice, sliceIndex_eq _ hlen, hslice]
  | some stop => simp only [Rust.jsSlice, Python.jsSlice, sliceIndex_eq _ hlen, hslice]

/-! ## Sizes -/

/-- A size whose tenths are a tie that the even digit takes down: a quarter more
than whole kibibytes or mebibytes. -/
def TiedSize (size : Nat) : Prop :=
  1024 ≤ size ∧ size < 1024 * 1024 ∧ size % 1024 = 256 ∨ 1024 * 1024 ≤ size ∧ size % (1024 * 1024) = 262144

instance (size : Nat) : Decidable (TiedSize size) := inferInstanceAs (Decidable (_ ∨ _))

/-- Rounding halves up, and to even, of tenths with their remainder. -/
theorem python_tenths (size : Nat) {unit : Nat} (h : 0 < unit) :
    Python.tenths size unit = if 2 * (10 * size % unit) < unit then 10 * size / unit else 10 * size / unit + 1 := by
  have hsplit := Nat.div_add_mod (10 * size) unit
  have hmod := Nat.mod_lt (10 * size) h
  rw [Python.tenths]
  generalize 10 * size / unit = m at hsplit ⊢
  generalize 10 * size % unit = r at hsplit hmod ⊢
  rw [← hsplit]
  split_ifs with hlow
  · apply Nat.div_eq_of_lt_le <;> nlinarith
  · apply Nat.div_eq_of_lt_le <;> nlinarith

/-- They differ by one tenth on a tie behind an even digit, and nowhere else. -/
theorem tenths_cases (size : Nat) {unit : Nat} (h : 0 < unit) :
    (2 * (10 * size % unit) = unit ∧ 10 * size / unit % 2 = 0) ∧ Rust.tenths size unit = 10 * size / unit ∧
        Python.tenths size unit = 10 * size / unit + 1 ∨
      ¬ (2 * (10 * size % unit) = unit ∧ 10 * size / unit % 2 = 0) ∧
        Python.tenths size unit = Rust.tenths size unit := by
  rw [python_tenths size h]
  simp only [Rust.tenths]
  generalize 10 * size / unit = m
  generalize 10 * size % unit = r
  split_ifs <;> omega

/-- The ties behind an even digit are at a quarter of a unit, and the digit is a two. -/
theorem tie_quarter (size : Nat) {c : Nat} (hpos : 0 < c) (hfive : ¬ 5 ∣ c) :
    (2 * (10 * size % (4 * c)) = 4 * c ∧ 10 * size / (4 * c) % 2 = 0 ↔ size % (4 * c) = c) ∧
      (size % (4 * c) = c → 10 * size / (4 * c) % 10 = 2) := by
  have hsplit := Nat.div_add_mod size (4 * c)
  have hmod := Nat.mod_lt size (show 0 < 4 * c by omega)
  generalize size / (4 * c) = a at hsplit
  generalize size % (4 * c) = b at hsplit hmod ⊢
  subst hsplit
  have hten : 10 * (4 * c * a + b) = 4 * c * (10 * a) + 10 * b := by ring
  rw [hten, Nat.mul_add_mod, Nat.mul_add_div (by omega)]
  have hdiv := Nat.div_add_mod (10 * b) (4 * c)
  have hrest := Nat.mod_lt (10 * b) (show 0 < 4 * c by omega)
  have hq : 10 * b / (4 * c) < 10 := by
    rw [Nat.div_lt_iff_lt_mul (by omega)]
    omega
  generalize 10 * b / (4 * c) = q at hdiv hq ⊢
  generalize 10 * b % (4 * c) = r at hdiv hrest ⊢
  have hc : c % 5 ≠ 0 := fun h => hfive (Nat.dvd_of_mod_eq_zero h)
  -- with the digit known, what is left is linear in the unit
  have hdigit : q = 0 ∨ q = 1 ∨ q = 2 ∨ q = 3 ∨ q = 4 ∨ q = 5 ∨ q = 6 ∨ q = 7 ∨ q = 8 ∨ q = 9 := by omega
  rcases hdigit with rfl | rfl | rfl | rfl | rfl | rfl | rfl | rfl | rfl | rfl <;> omega

/-- On a quarter the tenths differ by one, behind a two; elsewhere they are the same. -/
theorem tenths_quarter (size : Nat) {c : Nat} (hpos : 0 < c) (hfive : ¬ 5 ∣ c) :
    size % (4 * c) = c ∧ Python.tenths size (4 * c) = Rust.tenths size (4 * c) + 1 ∧ Rust.tenths size (4 * c) % 10 = 2 ∨
      size % (4 * c) ≠ c ∧ Python.tenths size (4 * c) = Rust.tenths size (4 * c) := by
  obtain ⟨hiff, htwo⟩ := tie_quarter size hpos hfive
  rcases tenths_cases size (show 0 < 4 * c by omega) with ⟨htie, hrust, hpython⟩ | ⟨hfree, hsame⟩
  · have hquarter := hiff.mp htie
    exact Or.inl ⟨hquarter, by rw [hpython, hrust], by rw [hrust]; exact htwo hquarter⟩
  · exact Or.inr ⟨fun hquarter => hfree (hiff.mpr hquarter), hsame⟩

/-- A tenth more behind a two is another text. -/
theorem oneDigit_succ_ne {n : Nat} (h : n % 10 = 2) (unit : List Char) :
    oneDigit (n + 1) ++ unit ≠ oneDigit n ++ unit := by
  have hdiv : (n + 1) / 10 = n / 10 := by omega
  have hmod : (n + 1) % 10 = 3 := by omega
  intro heq
  have hdigits := List.append_cancel_right heq
  rw [oneDigit, oneDigit, hdiv, hmod, h] at hdigits
  have htail := List.append_cancel_left hdigits
  revert htail
  decide

/-- The sizes agree except on such a tie. -/
theorem formatSize_eq_iff (size : Nat) : Python.formatSize size = Rust.formatSize size ↔ ¬ TiedSize size := by
  unfold Python.formatSize Rust.formatSize formatSizeBy TiedSize
  by_cases hbytes : size < 1024
  · rw [if_pos hbytes, if_pos hbytes]
    simp only [true_iff]
    omega
  · rw [if_neg hbytes, if_neg hbytes]
    by_cases hkilo : size < 1024 * 1024
    · rw [if_pos hkilo, if_pos hkilo]
      have hkibibytes : size % 1024 = 256 ∧ Python.tenths size 1024 = Rust.tenths size 1024 + 1 ∧
          Rust.tenths size 1024 % 10 = 2 ∨ size % 1024 ≠ 256 ∧ Python.tenths size 1024 = Rust.tenths size 1024 :=
        @tenths_quarter size 256 (by decide) (by decide)
      rcases hkibibytes with ⟨htie, hnext, htwo⟩ | ⟨hfree, hsame⟩
      · rw [hnext]
        exact iff_of_false (oneDigit_succ_ne htwo _) (not_not.mpr (Or.inl ⟨not_lt.mp hbytes, hkilo, htie⟩))
      · rw [hsame]
        simp only [true_iff]
        omega
    · rw [if_neg hkilo, if_neg hkilo]
      have hmebibytes : size % (1024 * 1024) = 262144 ∧
          Python.tenths size (1024 * 1024) = Rust.tenths size (1024 * 1024) + 1 ∧
          Rust.tenths size (1024 * 1024) % 10 = 2 ∨
          size % (1024 * 1024) ≠ 262144 ∧ Python.tenths size (1024 * 1024) = Rust.tenths size (1024 * 1024) :=
        @tenths_quarter size 262144 (by decide) (by decide)
      rcases hmebibytes with ⟨htie, hnext, htwo⟩ | ⟨hfree, hsame⟩
      · rw [hnext]
        exact iff_of_false (oneDigit_succ_ne htwo _) (not_not.mpr (Or.inr ⟨not_lt.mp hkilo, htie⟩))
      · rw [hsame]
        simp only [true_iff]
        omega

/-! ## Pages -/

/-- The line that a page shows only the size of. -/
def ShowsLine (f : ReadFunctions) (data : List UInt8) (offset limit : Option Binary64) (line : List Char) : Prop :=
  (Binary64.ofInt (fileLines data).length).le (startLine f offset) = false ∧
    (f.truncateHead (joinLines (selectedLines f (fileLines data) offset limit))).firstLineExceedsLimit = true ∧
    lineAt (fileLines data) (startLine f offset) = some line

/-- Functions that agree on some lines, but for the sizes of lines. -/
structure AgreeOn (f g : ReadFunctions) (lines : List (List Char)) : Prop where
  mathMin : f.mathMin = g.mathMin
  mathMax : f.mathMax = g.mathMax
  jsSlice : f.jsSlice lines = g.jsSlice lines
  numberToString : f.numberToString = g.numberToString
  truncateHead : f.truncateHead = g.truncateHead
  ceiling : f.formatSize DEFAULT_MAX_BYTES = g.formatSize DEFAULT_MAX_BYTES

namespace AgreeOn

variable {f g : ReadFunctions} {data : List UInt8}

section Selection

variable {lines : List (List Char)} (h : AgreeOn f g lines)
include h

theorem startLine_eq (offset : Option Binary64) : startLine f offset = startLine g offset := by
  unfold startLine
  rw [h.mathMax]

theorem endLine_eq (total : Nat) (start : Binary64) (limit : Option Binary64) :
    endLine f total start limit = endLine g total start limit := by
  unfold endLine
  rw [h.mathMin]

theorem selectedLines_eq (offset limit : Option Binary64) :
    selectedLines f lines offset limit = selectedLines g lines offset limit := by
  unfold selectedLines
  rw [h.jsSlice, h.startLine_eq, h.endLine_eq]

theorem truncatedNotice_eq (total : Nat) (startDisplay : Binary64) (t : Truncation) :
    truncatedNotice f total startDisplay t = truncatedNotice g total startDisplay t := by
  unfold truncatedNotice
  rw [h.numberToString, h.ceiling]

theorem limitNotice_eq (total : Nat) (start limited : Binary64) :
    limitNotice f total start limited = limitNotice g total start limited := by
  unfold limitNotice
  rw [h.numberToString]

theorem text_eq (page : Page) : page.text f = page.text g := by
  unfold Page.text
  rw [h.numberToString]

/-- The messages for a long line agree where the sizes do. -/
theorem longLineText_eq_iff (path : List Char) (display : Binary64) (line : List Char) :
    longLineText f path display line = longLineText g path display line ↔
      f.formatSize (utf8Len line) = g.formatSize (utf8Len line) := by
  unfold longLineText
  rw [h.numberToString, h.ceiling]
  simp only [List.append_cancel_right_eq, List.append_cancel_left_eq]

end Selection

/-- The pages are equal where no size of a line is shown. -/
theorem readPage_eq (h : AgreeOn f g (fileLines data)) (path : List Char) {offset limit : Option Binary64}
    (hnone : ∀ line, ¬ ShowsLine g data offset limit line) :
    readPage f data path offset limit = readPage g data path offset limit := by
  unfold readPage
  simp only [h.startLine_eq, h.selectedLines_eq, h.endLine_eq, h.truncateHead, h.numberToString, h.truncatedNotice_eq,
    h.limitNotice_eq]
  by_cases hbeyond : (Binary64.ofInt (fileLines data).length).le (startLine g offset)
  · rw [if_pos hbeyond, if_pos hbeyond]
  · rw [if_neg hbeyond, if_neg hbeyond]
    by_cases hlong : (g.truncateHead (joinLines (selectedLines g (fileLines data) offset limit))).firstLineExceedsLimit
    · rw [if_pos hlong, if_pos hlong]
      cases hline : lineAt (fileLines data) (startLine g offset) with
      | none => rfl
      | some line =>
        have hstart : (Binary64.ofInt (fileLines data).length).le (startLine g offset) = false := by
          simpa only [Bool.not_eq_true] using hbeyond
        have hshows : ShowsLine g data offset limit line := ⟨hstart, hlong, hline⟩
        exact absurd hshows (hnone line)
    · rw [if_neg hlong, if_neg hlong]

/-- The texts are equal where the size of the line shown is, if one is. -/
theorem readTextBy_eq_iff (h : AgreeOn f g (fileLines data)) (path : List Char) (offset limit : Option Binary64) :
    readTextBy f data path offset limit = readTextBy g data path offset limit ↔
      ∀ line, ShowsLine g data offset limit line → f.formatSize (utf8Len line) = g.formatSize (utf8Len line) := by
  by_cases hnone : ∀ line, ¬ ShowsLine g data offset limit line
  · have htext : (fun page : Page => (page.text f, page.details)) = fun page : Page => (page.text g, page.details) := by
      funext page
      rw [h.text_eq]
    refine iff_of_true ?_ fun line hline => absurd hline (hnone line)
    rw [readTextBy, readTextBy, h.readPage_eq path hnone, htext]
  · obtain ⟨line, hline⟩ := not_forall_not.mp hnone
    obtain ⟨hbeyond, hlong, hat⟩ := hline
    have honly : (∀ other, ShowsLine g data offset limit other → f.formatSize (utf8Len other) =
        g.formatSize (utf8Len other)) ↔ f.formatSize (utf8Len line) = g.formatSize (utf8Len line) := by
      refine ⟨fun hall => hall line ⟨hbeyond, hlong, hat⟩, fun heq other hother => ?_⟩
      have hsame : other = line := Option.some.inj (hother.2.2.symm.trans hat)
      rw [hsame, heq]
    rw [honly, ← h.longLineText_eq_iff path ((startLine g offset).add (.finite 1)) line]
    simp only [readTextBy, readPage, h.startLine_eq, h.selectedLines_eq, h.truncateHead, hbeyond, hlong, hat, if_true,
      Bool.false_eq_true, if_false, Except.map, Page.text, Except.ok.injEq, Prod.mk.injEq, and_true]

end AgreeOn

/-- The functions of the two bindings agree, on all lines that doubles can count. -/
theorem agreeOn {shortest : Shortest} {ryu : ℚ → List Char} (h : WritesEcma shortest ryu) {lines : List (List Char)}
    (hlines : lines.length < 2 ^ 53) : AgreeOn (Rust.readFunctions ryu) (Python.readFunctions shortest) lines where
  mathMin := mathMin_eq
  mathMax := mathMax_eq
  jsSlice := by
    funext start stop
    exact jsSlice_eq hlines start stop
  numberToString := numberToString_eq h
  truncateHead := by
    funext content
    exact (truncateHead_agrees content).symm
  ceiling := ((formatSize_eq_iff DEFAULT_MAX_BYTES).mpr (by decide)).symm

/-! ## Long lines -/

theorem mathMax_zero {x : Binary64} {q : ℚ} (h : Python.mathMax (.finite 0) x = .finite q) : 0 ≤ q := by
  unfold Python.mathMax at h
  by_cases hnan : Binary64.finite 0 = .nan ∨ x = .nan
  · rw [if_pos hnan] at h
    cases h
  · rw [if_neg hnan] at h
    by_cases hle : x.le (.finite 0) = true
    · rw [if_pos hle] at h
      cases h
      exact le_refl 0
    · rw [if_neg hle] at h
      rw [h, Binary64.le_finite, decide_eq_true_eq] at hle
      exact (not_le.mp hle).le

theorem startLine_nonneg {shortest : Shortest} {offset : Option Binary64} {q : ℚ}
    (h : startLine (Python.readFunctions shortest) offset = .finite q) : 0 ≤ q := by
  cases offset with
  | none =>
    cases h
    exact le_refl 0
  | some offset =>
    simp only [startLine] at h
    by_cases hfalsy : offset = .finite 0 ∨ offset = .nan
    · rw [if_pos hfalsy] at h
      cases h
      exact le_refl 0
    · rw [if_neg hfalsy] at h
      exact mathMax_zero h

theorem fileLines_areLines (data : List UInt8) : AreLines (fileLines data) := areLines_splitOn (decodeUtf8 data)

theorem relativeIndex_whole {q : ℚ} (hnonneg : 0 ≤ q) {length : Nat} (hlt : ⌊q⌋.toNat < length) :
    Python.relativeIndex (.finite q) length = ⌊q⌋.toNat := by
  have hfloor : 0 ≤ ⌊q⌋ := Int.floor_nonneg.mpr hnonneg
  simp only [Python.relativeIndex, truncate, if_pos hnonneg]
  rw [if_neg (not_lt.mpr hfloor)]
  omega

/-- A slice takes lines from the index on, up to some line. -/
theorem exists_jsSlice (lines : List (List Char)) (start : Binary64) (stop : Option Binary64) :
    ∃ hi, Python.jsSlice lines start stop = (lines.take hi).drop (Python.relativeIndex start lines.length) := by
  simp only [Python.jsSlice]
  split_ifs with hsome
  · exact ⟨_, rfl⟩
  · refine ⟨0, ?_⟩
    simp

theorem jsSlice_sublist (lines : List (List Char)) (start : Binary64) (stop : Option Binary64) :
    (Python.jsSlice lines start stop).Sublist lines := by
  obtain ⟨hi, hslice⟩ := exists_jsSlice lines start stop
  rw [hslice]
  exact (List.drop_sublist _ _).trans (List.take_sublist _ _)

/-- The selected lines start with the line that the page starts at. -/
theorem selectedLines_cons {shortest : Shortest} {lines : List (List Char)} {offset limit : Option Binary64}
    {line : List Char}
    (hat : lineAt lines (startLine (Python.readFunctions shortest) offset) = some line)
    (hne : selectedLines (Python.readFunctions shortest) lines offset limit ≠ []) :
    ∃ rest, selectedLines (Python.readFunctions shortest) lines offset limit = line :: rest := by
  cases hstart : startLine (Python.readFunctions shortest) offset with
  | nan => simp [hstart, lineAt] at hat
  | infinite negative => simp [hstart, lineAt] at hat
  | finite q =>
    rw [hstart, lineAt] at hat
    split_ifs at hat with hwhole
    obtain ⟨hlt, hline⟩ := List.getElem?_eq_some_iff.mp hat
    rw [selectedLines] at hne ⊢
    rw [hstart] at hne ⊢
    generalize endLine (Python.readFunctions shortest) lines.length (.finite q) limit = stop at hne ⊢
    replace hne : Python.jsSlice lines (.finite q) stop ≠ [] := hne
    show ∃ rest, Python.jsSlice lines (.finite q) stop = line :: rest
    obtain ⟨hi, hslice⟩ := exists_jsSlice lines (.finite q) stop
    rw [hslice, relativeIndex_whole (startLine_nonneg hstart) hlt, List.drop_take, List.drop_eq_getElem_cons hlt, hline]
      at hne ⊢
    cases hcount : hi - ⌊q⌋.toNat with
    | zero => simp [hcount] at hne
    | succ count => exact ⟨_, List.take_succ_cons⟩

/-- A size is shown of the line a page starts at, when it is over the ceiling alone. -/
theorem showsLine_iff {shortest : Shortest} {data : List UInt8} (hlines : (fileLines data).length < 2 ^ 53)
    {offset limit : Option Binary64} {line : List Char} :
    ShowsLine (Python.readFunctions shortest) data offset limit line ↔
      lineAt (fileLines data) (startLine (Python.readFunctions shortest) offset) = some line ∧
        selectedLines (Python.readFunctions shortest) (fileLines data) offset limit ≠ [] ∧
        DEFAULT_MAX_BYTES < utf8Len line := by
  have hcut : ∀ content, (Python.readFunctions shortest).truncateHead content =
      Rust.truncateHead DEFAULT_MAX_LINES DEFAULT_MAX_BYTES content := truncateHead_agrees
  rw [ShowsLine, hcut]
  have hempty : selectedLines (Python.readFunctions shortest) (fileLines data) offset limit = [] →
      ¬ (Rust.truncateHead DEFAULT_MAX_LINES DEFAULT_MAX_BYTES (joinLines (selectedLines (Python.readFunctions shortest)
        (fileLines data) offset limit))).firstLineExceedsLimit = true := by
    intro hnil hlong
    rw [hnil, firstLineExceedsLimit_nil] at hlong
    cases hlong
  constructor
  · rintro ⟨-, hlong, hat⟩
    have hne := fun hnil => hempty hnil hlong
    obtain ⟨rest, hselected⟩ := selectedLines_cons hat hne
    have hsub : (line :: rest).Sublist (fileLines data) := hselected ▸ jsSlice_sublist _ _ _
    rw [hselected, firstLineExceedsLimit_iff ((fileLines_areLines data).sublist hsub (List.cons_ne_nil _ _))] at hlong
    exact ⟨hat, hne, hlong⟩
  · rintro ⟨hat, hne, hlong⟩
    obtain ⟨rest, hselected⟩ := selectedLines_cons hat hne
    have hsub : (line :: rest).Sublist (fileLines data) := hselected ▸ jsSlice_sublist _ _ _
    refine ⟨?_, ?_, hat⟩
    · cases hstart : startLine (Python.readFunctions shortest) offset with
      | nan => simp [hstart, lineAt] at hat
      | infinite negative => simp [hstart, lineAt] at hat
      | finite q =>
        rw [hstart, lineAt] at hat
        split_ifs at hat with hwhole
        obtain ⟨hlt, -⟩ := List.getElem?_eq_some_iff.mp hat
        have hint : Binary64.ofInt (fileLines data).length = .finite (((fileLines data).length : ℤ) : ℚ) :=
          Binary64.round_int (by
            rw [abs_of_nonneg (Int.natCast_nonneg _)]
            exact_mod_cast hlines)
        rw [hint, Binary64.le_finite, decide_eq_false_iff_not, not_le, hwhole]
        exact_mod_cast (by omega : ⌊q⌋ < ((fileLines data).length : ℤ))
    · rw [hselected, firstLineExceedsLimit_iff ((fileLines_areLines data).sublist hsub (List.cons_ne_nil _ _))]
      exact hlong

end MinionAgent
