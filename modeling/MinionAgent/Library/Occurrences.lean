import Mathlib.Data.List.Infix

/-!
# MinionAgent.Library.Occurrences

Where a text occurs in another one.

* `find` — the first place, `find_eq_some` what it is;
* `count` — how many occurrences there are from left to right that do not
  overlap, `count_of_find` its step from one to the next;
* `findIdx?_windows` — the first place by the windows of the text.
-/

namespace Occurrences

variable {α : Type} [DecidableEq α] {needle text : List α}

/-- `text.find(needle)`. -/
def find (needle : List α) : List α → Option Nat
  | [] => if needle = [] then some 0 else none
  | c :: text => if needle <+: c :: text then some 0 else (find needle text).map (· + 1)

/-- The occurrences of a non-empty text, `skip` elements of one being still left. -/
def countFrom (needle : List α) : Nat → List α → Nat
  | _, [] => 0
  | skip + 1, _ :: text => countFrom needle skip text
  | 0, c :: text =>
    if needle <+: c :: text then countFrom needle (needle.length - 1) text + 1 else countFrom needle 0 text

/-- `text.count(needle)` of a non-empty text. -/
def count (needle text : List α) : Nat := countFrom needle 0 text

theorem find_of_here (h : needle <+: text) : find needle text = some 0 := by
  cases text with
  | nil => rw [find, if_pos (List.prefix_nil.mp h)]
  | cons c text => rw [find, if_pos h]

/-- The first place where a text occurs. -/
theorem find_eq_some {i : Nat} :
    find needle text = some i ↔ i ≤ text.length ∧ needle <+: text.drop i ∧ ∀ j < i, ¬ needle <+: text.drop j := by
  induction text generalizing i with
  | nil => cases i <;> simp [find]
  | cons c text ih =>
    by_cases hhere : needle <+: c :: text
    · rw [find_of_here hhere]
      constructor
      · rintro h
        obtain rfl := Option.some.inj h
        exact ⟨Nat.zero_le _, hhere, fun j hj => absurd hj (Nat.not_lt_zero j)⟩
      · intro ⟨_, _, hfirst⟩
        rcases Nat.eq_zero_or_pos i with rfl | hpos
        · rfl
        · exact absurd hhere (hfirst 0 hpos)
    · rw [find, if_neg hhere]
      cases i with
      | zero => simp [hhere]
      | succ i =>
        have hshift : (∀ j < i + 1, ¬ needle <+: (c :: text).drop j) ↔ ∀ j < i, ¬ needle <+: text.drop j := by
          constructor
          · intro h j hj
            exact h (j + 1) (Nat.succ_lt_succ hj)
          · intro h j hj
            cases j with
            | zero => exact hhere
            | succ j => exact h j (Nat.lt_of_succ_lt_succ hj)
        rw [hshift, List.drop_succ_cons, List.length_cons, Nat.succ_le_succ_iff, ← ih]
        simp

theorem find_eq_none : find needle text = none ↔ ¬ needle <:+: text := by
  induction text with
  | nil => simp [find]
  | cons c text ih =>
    rw [List.infix_cons_iff, find]
    by_cases hhere : needle <+: c :: text
    · simp [hhere]
    · simp [hhere, ih]

theorem find_isSome : (find needle text).isSome ↔ needle <:+: text := by
  rw [← not_iff_not, Bool.not_eq_true, Option.isSome_eq_false_iff, Option.isNone_iff_eq_none, find_eq_none]

/-- Where a text occurs it is all there. -/
theorem find_add_length_le {i : Nat} (h : find needle text = some i) : i + needle.length ≤ text.length := by
  obtain ⟨hi, hbegins, _⟩ := find_eq_some.mp h
  have hlength := hbegins.length_le
  rw [List.length_drop] at hlength
  omega

theorem countFrom_drop (skip : Nat) (text : List α) : countFrom needle skip text = count needle (text.drop skip) := by
  induction text generalizing skip with
  | nil => cases skip <;> simp [countFrom, count]
  | cons c text ih =>
    cases skip with
    | zero => rfl
    | succ skip => exact ih skip

theorem count_of_here (hne : needle ≠ []) (h : needle <+: text) :
    count needle text = count needle (text.drop needle.length) + 1 := by
  obtain ⟨first, rest, rfl⟩ := List.exists_cons_of_ne_nil hne
  cases text with
  | nil => cases List.prefix_nil.mp h
  | cons c text =>
    rw [count, countFrom, if_pos h, countFrom_drop]
    rfl

/-- After the first occurrence, the count goes on behind it. -/
theorem count_of_find (hne : needle ≠ []) {i : Nat} (h : find needle text = some i) :
    count needle text = count needle (text.drop (i + needle.length)) + 1 := by
  induction text generalizing i with
  | nil => simp [find, hne] at h
  | cons c text ih =>
    rw [find] at h
    split at h
    · next hhere =>
      obtain rfl := Option.some.inj h
      rw [Nat.zero_add]
      exact count_of_here hne hhere
    · next hhere =>
      obtain ⟨j, hj, rfl⟩ := Option.map_eq_some_iff.mp h
      rw [count, countFrom, if_neg hhere, ← count, ih hj, Nat.add_right_comm, List.drop_succ_cons]

theorem count_of_find_none (h : find needle text = none) : count needle text = 0 := by
  induction text with
  | nil => rfl
  | cons c text ih =>
    rw [find] at h
    split at h
    · cases h
    · next hhere =>
      rw [count, countFrom, if_neg hhere]
      exact ih (by simpa using h)

theorem count_pos (hne : needle ≠ []) : 0 < count needle text ↔ needle <:+: text := by
  rw [← find_isSome]
  cases h : find needle text with
  | none => simp [count_of_find_none h]
  | some i => simp [count_of_find hne h]

/-! ## Windows -/

/-- `text.windows(n)`. -/
def windows (n : Nat) (text : List α) : List (List α) :=
  (List.range (text.length + 1 - n)).map fun i => (text.drop i).take n

/-- The first window that is the text is its first place. -/
theorem findIdx?_windows :
    (windows needle.length text).findIdx? (· == needle) = find needle text := by
  have hwindow (i : Nat) : ((text.drop i).take needle.length == needle) = true ↔ needle <+: text.drop i := by
    rw [beq_iff_eq, List.prefix_iff_eq_take, eq_comm]
  cases hfind : find needle text with
  | none =>
    refine List.findIdx?_eq_none_iff.mpr fun window hmem => ?_
    obtain ⟨i, _, rfl⟩ := List.mem_map.mp hmem
    rw [Bool.eq_false_iff, Ne, hwindow]
    intro hbegins
    exact find_eq_none.mp hfind (hbegins.isInfix.trans (List.drop_suffix ..).isInfix)
  | some i =>
    obtain ⟨_, hbegins, hfirst⟩ := find_eq_some.mp hfind
    have hle := find_add_length_le hfind
    rw [List.findIdx?_eq_some_iff_getElem]
    refine ⟨by simp [windows]; omega, ?_, fun j hj => ?_⟩
    · simpa [windows] using (hwindow i).mpr hbegins
    · simpa [windows] using mt (hwindow j).mp (hfirst j hj)

end Occurrences
