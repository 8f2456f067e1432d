import Mathlib.Data.List.Basic
import Mathlib.Data.List.Induction

/-!
# MinionAgent.Library.EditScript

Edit scripts between two lists, and how short one can be.

A script keeps, removes and adds entries one at a time; its cost is the number
of entries it removes or adds. The search for a short script walks a grid: the
point `(x, y)` is where the first `x` entries of the one list and the first `y`
of the other are done, and `Reaches e x y` says that some script with exactly
`e` edits leads there.

* `cost_add_kept` — what a script does not keep it pays for;
* `kept_sublist` — what it keeps is common to both lists;
* `exists_script` — every common sublist is what some script keeps;
* `reaches_iff` — the points reached are the ends of scripts;
* `lcs_le_cost` — so the longest common sublist says what every script costs.
-/

namespace MinionAgent

variable {α : Type*}

/-- One step of a script. -/
inductive EditStep (α : Type*) where
  | keep (a : α)
  | remove (a : α)
  | add (a : α)

namespace EditScript

/-! ## Scripts -/

/-- The list a script starts from. -/
def source : List (EditStep α) → List α
  | [] => []
  | .keep a :: s => a :: source s
  | .remove a :: s => a :: source s
  | .add _ :: s => source s

/-- The list a script ends with. -/
def target : List (EditStep α) → List α
  | [] => []
  | .keep a :: s => a :: target s
  | .remove _ :: s => target s
  | .add a :: s => a :: target s

/-- The entries a script keeps. -/
def kept : List (EditStep α) → List α
  | [] => []
  | .keep a :: s => a :: kept s
  | .remove _ :: s => kept s
  | .add _ :: s => kept s

/-- How many entries a script removes or adds. -/
def cost : List (EditStep α) → Nat
  | [] => 0
  | .keep _ :: s => cost s
  | .remove _ :: s => cost s + 1
  | .add _ :: s => cost s + 1

@[simp] theorem source_append (s t : List (EditStep α)) : source (s ++ t) = source s ++ source t := by
  fun_induction source s <;> simp_all [source]

@[simp] theorem target_append (s t : List (EditStep α)) : target (s ++ t) = target s ++ target t := by
  fun_induction target s <;> simp_all [target]

@[simp] theorem kept_append (s t : List (EditStep α)) : kept (s ++ t) = kept s ++ kept t := by
  fun_induction kept s <;> simp_all [kept]

@[simp] theorem cost_append (s t : List (EditStep α)) : cost (s ++ t) = cost s + cost t := by
  fun_induction cost s <;> simp_all [cost] <;> omega

@[simp] theorem source_removes (as : List α) : source (as.map .remove) = as := by
  induction as <;> simp_all [source]

@[simp] theorem source_adds (as : List α) : source (as.map .add) = [] := by
  induction as <;> simp_all [source]

@[simp] theorem target_removes (as : List α) : target (as.map .remove) = [] := by
  induction as <;> simp_all [target]

@[simp] theorem target_adds (as : List α) : target (as.map .add) = as := by
  induction as <;> simp_all [target]

@[simp] theorem kept_removes (as : List α) : kept (as.map .remove) = [] := by
  induction as <;> simp_all [kept]

@[simp] theorem kept_adds (as : List α) : kept (as.map .add) = [] := by
  induction as <;> simp_all [kept]

/-- What a script does not keep it pays for, on either side. -/
theorem cost_add_kept (s : List (EditStep α)) :
    cost s + 2 * (kept s).length = (source s).length + (target s).length := by
  induction s with
  | nil => rfl
  | cons step s ih => cases step <;> simp only [cost, kept, source, target, List.length_cons] <;> omega

/-- What a script keeps is a sublist of where it starts. -/
theorem kept_sublist_source (s : List (EditStep α)) : (kept s).Sublist (source s) := by
  induction s with
  | nil => exact .slnil
  | cons step s ih =>
    cases step with
    | keep a => exact ih.cons_cons a
    | remove a => exact ih.cons a
    | add a => exact ih

/-- And of where it ends. -/
theorem kept_sublist_target (s : List (EditStep α)) : (kept s).Sublist (target s) := by
  induction s with
  | nil => exact .slnil
  | cons step s ih =>
    cases step with
    | keep a => exact ih.cons_cons a
    | remove a => exact ih
    | add a => exact ih.cons a

/-- Every common sublist is what some script keeps. -/
theorem exists_script {c as bs : List α} (ha : c.Sublist as) (hb : c.Sublist bs) :
    ∃ s : List (EditStep α), source s = as ∧ target s = bs ∧ kept s = c := by
  induction c generalizing as bs with
  | nil => exact ⟨as.map .remove ++ bs.map .add, by simp, by simp, by simp⟩
  | cons x c ih =>
    obtain ⟨a₁, a₂, rfl, hxa, hca⟩ := List.cons_sublist_iff.1 ha
    obtain ⟨b₁, b₂, rfl, hxb, hcb⟩ := List.cons_sublist_iff.1 hb
    obtain ⟨p, q, rfl⟩ := List.append_of_mem hxa
    obtain ⟨p', q', rfl⟩ := List.append_of_mem hxb
    obtain ⟨s, hs, ht, hk⟩ :=
      ih (hca.trans (List.sublist_append_right q a₂)) (hcb.trans (List.sublist_append_right q' b₂))
    refine ⟨p.map .remove ++ p'.map .add ++ .keep x :: s, ?_, ?_, ?_⟩
    · simp [source, hs]
    · simp [target, ht]
    · simp [kept, hk]

/-! ## The longest common sublist -/

section lcs

variable [DecidableEq α]

/-- The length of a longest common sublist. -/
def lcs : List α → List α → Nat
  | [], _ => 0
  | _ :: _, [] => 0
  | a :: as, b :: bs => if a = b then lcs as bs + 1 else max (lcs as (b :: bs)) (lcs (a :: as) bs)
termination_by as bs => as.length + bs.length

/-- No common sublist is longer. -/
theorem length_le_lcs {c as bs : List α} (ha : c.Sublist as) (hb : c.Sublist bs) : c.length ≤ lcs as bs := by
  fun_induction lcs as bs generalizing c with
  | case1 bs => simp [List.sublist_nil.1 ha]
  | case2 a as => simp [List.sublist_nil.1 hb]
  | case3 as b bs ih =>
    have hc : c.length ≤ c.tail.length + 1 := by simp; omega
    exact Nat.le_trans hc (Nat.add_le_add_right (ih ha.tail hb.tail) 1)
  | case4 a as b bs hab ih₁ ih₂ =>
    -- the first entry of the sublist is not both heads, so one of them may go
    cases ha with
    | cons _ ha => exact Nat.le_trans (ih₁ ha hb) (Nat.le_max_left _ _)
    | cons_cons _ ha' =>
      cases hb with
      | cons _ hb => exact Nat.le_trans (ih₂ (ha'.cons_cons a) hb) (Nat.le_max_right _ _)
      | cons_cons _ _ => exact absurd rfl hab

/-- And one is as long. -/
theorem exists_lcs (as bs : List α) : ∃ c : List α, c.Sublist as ∧ c.Sublist bs ∧ c.length = lcs as bs := by
  fun_induction lcs as bs with
  | case1 bs => exact ⟨[], .slnil, List.nil_sublist bs, rfl⟩
  | case2 a as => exact ⟨[], List.nil_sublist _, .slnil, rfl⟩
  | case3 as b bs ih =>
    obtain ⟨c, ha, hb, hc⟩ := ih
    exact ⟨b :: c, ha.cons_cons b, hb.cons_cons b, by simp [hc]⟩
  | case4 a as b bs hab ih₁ ih₂ =>
    obtain ⟨c₁, ha₁, hb₁, hc₁⟩ := ih₁
    obtain ⟨c₂, ha₂, hb₂, hc₂⟩ := ih₂
    by_cases h : lcs as (b :: bs) ≤ lcs (a :: as) bs
    · exact ⟨c₂, ha₂, hb₂.cons b, by omega⟩
    · exact ⟨c₁, ha₁.cons a, hb₁, by omega⟩

/-- No script is cheaper than what the longest common sublist leaves. -/
theorem lcs_le_cost (s : List (EditStep α)) :
    (source s).length + (target s).length ≤ cost s + 2 * lcs (source s) (target s) := by
  have := length_le_lcs (kept_sublist_source s) (kept_sublist_target s)
  have := cost_add_kept s
  omega

/-- And some script is as cheap. -/
theorem exists_script_lcs (as bs : List α) :
    ∃ s : List (EditStep α), source s = as ∧ target s = bs ∧ cost s + 2 * lcs as bs = as.length + bs.length := by
  obtain ⟨c, ha, hb, hc⟩ := exists_lcs as bs
  obtain ⟨s, hs, ht, hk⟩ := exists_script ha hb
  have := cost_add_kept s
  exact ⟨s, hs, ht, by rw [← hc, ← hk, ← hs, ← ht]; exact this⟩

end lcs

/-! ## The grid -/

/-- The lists have a common entry at the point `(x, y)`. -/
def Agree (old new : List α) (x y : Nat) : Prop := ∃ a, old[x]? = some a ∧ new[y]? = some a

/-- Where the lists agree, both go on. -/
theorem Agree.lt {old new : List α} {x y : Nat} (h : Agree old new x y) : x < old.length ∧ y < new.length := by
  obtain ⟨a, ho, hn⟩ := h
  exact ⟨(List.getElem?_eq_some_iff.1 ho).1, (List.getElem?_eq_some_iff.1 hn).1⟩

/-- Exactly `e` edits lead from the start to the point `(x, y)`. -/
inductive Reaches (old new : List α) : Nat → Nat → Nat → Prop
  | start : Reaches old new 0 0 0
  | keep {e x y} (h : Reaches old new e x y) (ha : Agree old new x y) : Reaches old new e (x + 1) (y + 1)
  | remove {e x y} (h : Reaches old new e x y) (ho : x < old.length) : Reaches old new (e + 1) (x + 1) y
  | add {e x y} (h : Reaches old new e x y) (hn : y < new.length) : Reaches old new (e + 1) x (y + 1)

namespace Reaches

variable {old new : List α} {e x y : Nat}

/-- A point reached lies in the grid. -/
theorem le (h : Reaches old new e x y) : x ≤ old.length ∧ y ≤ new.length := by
  induction h with
  | start => exact ⟨Nat.zero_le _, Nat.zero_le _⟩
  | keep h ha ih => exact ha.lt
  | remove h ho ih => exact ⟨ho, ih.2⟩
  | add h hn ih => exact ⟨ih.1, hn⟩

/-- Its diagonal is at most `e` away, and of the parity of `e`. -/
theorem diagonal (h : Reaches old new e x y) : x ≤ y + e ∧ y ≤ x + e ∧ (x + y + e) % 2 = 0 := by
  induction h <;> omega

/-- A run of common entries is kept for nothing. -/
theorem keeps {n : Nat} (h : Reaches old new e x y)
    (hn : ∀ i < n, Agree old new (x + i) (y + i)) : Reaches old new e (x + n) (y + n) := by
  induction n with
  | zero => exact h
  | succ n ih => exact (ih fun i hi => hn i (Nat.lt_succ_of_lt hi)).keep (hn n n.lt_succ_self)

/-- A run of old entries is removed. -/
theorem removes {n : Nat} (h : Reaches old new e x y) (hn : x + n ≤ old.length) :
    Reaches old new (e + n) (x + n) y := by
  induction n with
  | zero => exact h
  | succ n ih => exact (ih (by omega)).remove (by omega)

/-- A run of new entries is added. -/
theorem adds {n : Nat} (h : Reaches old new e x y) (hn : y + n ≤ new.length) :
    Reaches old new (e + n) x (y + n) := by
  induction n with
  | zero => exact h
  | succ n ih => exact (ih (by omega)).add (by omega)

/-- A point reached is the start, or a last edit leads to it, and then a run of common entries. -/
theorem last_edit (h : Reaches old new e x y) :
    ∃ x₀ y₀ n, x = x₀ + n ∧ y = y₀ + n ∧ (∀ i < n, Agree old new (x₀ + i) (y₀ + i)) ∧
      ((e = 0 ∧ x₀ = 0 ∧ y₀ = 0) ∨
        (∃ e' x', e = e' + 1 ∧ x₀ = x' + 1 ∧ Reaches old new e' x' y₀ ∧ x' < old.length) ∨
        ∃ e' y', e = e' + 1 ∧ y₀ = y' + 1 ∧ Reaches old new e' x₀ y' ∧ y' < new.length) := by
  induction h with
  | start => exact ⟨0, 0, 0, rfl, rfl, fun i hi => absurd hi (Nat.not_lt_zero i), .inl ⟨rfl, rfl, rfl⟩⟩
  | keep h ha ih =>
    obtain ⟨x₀, y₀, n, rfl, rfl, hn, hlast⟩ := ih
    exact ⟨x₀, y₀, n + 1, rfl, rfl, fun i hi => (Nat.lt_succ_iff_lt_or_eq.1 hi).elim (hn i) (· ▸ ha), hlast⟩
  | @remove e x y h ho ih =>
    exact ⟨x + 1, y, 0, rfl, rfl, fun i hi => absurd hi (Nat.not_lt_zero i), .inr (.inl ⟨e, x, rfl, rfl, h, ho⟩)⟩
  | @add e x y h hn ih =>
    exact ⟨x, y + 1, 0, rfl, rfl, fun i hi => absurd hi (Nat.not_lt_zero i), .inr (.inr ⟨e, y, rfl, rfl, h, hn⟩)⟩

/-- The end is reached: everything old is removed, everything new added. -/
theorem all (old new : List α) :
    Reaches old new (old.length + new.length) old.length new.length := by
  have removed : Reaches old new (0 + old.length) (0 + old.length) 0 := Reaches.start.removes (by omega)
  have added : Reaches old new (0 + old.length + new.length) (0 + old.length) (0 + new.length) :=
    removed.adds (by omega)
  simpa using added

end Reaches

/-- The points reached are the ends of scripts. -/
theorem reaches_iff {old new : List α} {e : Nat} :
    Reaches old new e old.length new.length ↔
      ∃ s : List (EditStep α), source s = old ∧ target s = new ∧ cost s = e := by
  constructor
  · have upTo {x y : Nat} (h : Reaches old new e x y) :
        ∃ s : List (EditStep α), source s = old.take x ∧ target s = new.take y ∧ cost s = e := by
      induction h with
      | start => exact ⟨[], rfl, rfl, rfl⟩
      | @keep e x y h ha ih =>
        obtain ⟨s, hs, ht, hc⟩ := ih
        obtain ⟨a, ho, hn⟩ := ha
        exact ⟨s ++ [.keep a], by rw [source_append, List.take_add_one, hs, ho]; rfl,
          by rw [target_append, List.take_add_one, ht, hn]; rfl, by simp [hc, cost]⟩
      | @remove e x y h ho ih =>
        obtain ⟨s, hs, ht, hc⟩ := ih
        exact ⟨s ++ [.remove old[x]], by rw [source_append, List.take_add_one, hs, List.getElem?_eq_getElem ho]; rfl,
          by simp [ht, target], by simp [hc, cost]⟩
      | @add e x y h hn ih =>
        obtain ⟨s, hs, ht, hc⟩ := ih
        exact ⟨s ++ [.add new[y]], by simp [hs, source],
          by rw [target_append, List.take_add_one, ht, List.getElem?_eq_getElem hn]; rfl, by simp [hc, cost]⟩
    intro h
    simpa using upTo h
  · -- every first part of a script leads to a point
    have upTo (s t : List (EditStep α)) :
        Reaches (source (s ++ t)) (target (s ++ t)) (cost s) (source s).length (target s).length := by
      induction s using List.reverseRecOn generalizing t with
      | nil => exact .start
      | append_singleton s step ih =>
        have h := ih (step :: t)
        rw [List.append_assoc, List.singleton_append]
        cases step with
        | keep a => simpa [source, target, cost] using h.keep ⟨a, by simp [source], by simp [target]⟩
        | remove a => simpa [source, target, cost] using h.remove (by simp [source])
        | add a => simpa [source, target, cost] using h.add (by simp [target])
    intro h
    obtain ⟨s, rfl, rfl, rfl⟩ := h
    simpa using upTo s []

end EditScript

end MinionAgent
