import Mathlib.Data.List.Nodup
import Mathlib.Data.List.Range

/-!
# MinionAgent.Library.Supply

Collections of names drawn from a supply.  The supply gives a new name with
every draw, and a collection changes by losing names and gaining drawn ones.

* `Supplies` — such a change, from `n` draws to `n'`;
* `Supplied` — a collection that has only ever changed so;
* `Supplies.not_mem` — a name that is gone does not come back.
-/

namespace Supply

variable {α : Type} (supply : Nat → α)

/-- The draws from the `n`th on, before the `n'`th. -/
def draws (n n' : Nat) : List α := (List.range' n (n' - n)).map supply

/-- A change of a collection: names are lost, and those gained are drawn. -/
def Supplies (n : Nat) (names : List α) (n' : Nat) (names' : List α) : Prop :=
  n ≤ n' ∧ names'.Sublist (names ++ draws supply n n')

/-- A collection without repetition whose names were all drawn. -/
def Supplied (n : Nat) (names : List α) : Prop := names.Nodup ∧ ∀ a ∈ names, a ∈ draws supply 0 n

variable {supply}

theorem mem_draws {n n' : Nat} {a : α} : a ∈ draws supply n n' ↔ ∃ i, n ≤ i ∧ i < n' ∧ supply i = a := by
  simp only [draws, List.mem_map, List.mem_range'_1]
  constructor
  · rintro ⟨i, hi, rfl⟩
    exact ⟨i, hi.1, by omega, rfl⟩
  · rintro ⟨i, hn, hn', rfl⟩
    exact ⟨i, ⟨hn, by omega⟩, rfl⟩

theorem draws_append {n n' n'' : Nat} (h : n ≤ n') (h' : n' ≤ n'') :
    draws supply n n' ++ draws supply n' n'' = draws supply n n'' := by
  have hrange : List.range' n (n' - n) ++ List.range' n' (n'' - n') = List.range' n (n'' - n) := by
    rw [show n'' - n = (n' - n) + (n'' - n') by omega, ← List.range'_append_1]
    congr 2
    omega
  rw [draws, draws, draws, ← List.map_append, hrange]

namespace Supplies

/-- Names are only lost. -/
theorem of_sublist {names names' : List α} (h : names'.Sublist names) (n : Nat) : Supplies supply n names n names' :=
  ⟨Nat.le_refl n, h.trans (List.sublist_append_left _ _)⟩

theorem refl (n : Nat) (names : List α) : Supplies supply n names n names := of_sublist (List.Sublist.refl names) n

/-- A draw is added. -/
theorem concat (n : Nat) (names : List α) : Supplies supply n names (n + 1) (names ++ [supply n]) := by
  refine ⟨Nat.le_succ n, ?_⟩
  rw [draws, Nat.add_sub_cancel_left]
  exact List.Sublist.refl _

/-- A draw is not used here. -/
theorem skip (n : Nat) (names : List α) : Supplies supply n names (n + 1) names :=
  ⟨Nat.le_succ n, List.sublist_append_left _ _⟩

/-- Names set aside and put back. -/
theorem prepend {n n' : Nat} {names names' : List α} (held : List α) (h : Supplies supply n names n' names') :
    Supplies supply n (held ++ names) n' (held ++ names') := by
  refine ⟨h.1, ?_⟩
  rw [List.append_assoc]
  exact h.2.append_left held

theorem trans {n n' n'' : Nat} {names names' names'' : List α} (h : Supplies supply n names n' names')
    (h' : Supplies supply n' names' n'' names'') : Supplies supply n names n'' names'' := by
  refine ⟨h.1.trans h'.1, h'.2.trans ?_⟩
  rw [← draws_append h.1 h'.1, ← List.append_assoc]
  exact h.2.append_right _

/-- A supplied collection stays supplied. -/
theorem supplied {n n' : Nat} {names names' : List α} (hsupply : Function.Injective supply)
    (h : Supplies supply n names n' names') (hnames : Supplied supply n names) : Supplied supply n' names' := by
  obtain ⟨hnodup, hdrawn⟩ := hnames
  have hfresh : List.Disjoint names (draws supply n n') := by
    intro a ha hnew
    obtain ⟨i, -, hi, rfl⟩ := mem_draws.mp (hdrawn a ha)
    obtain ⟨j, hj, -, hij⟩ := mem_draws.mp hnew
    have heq := hsupply hij
    omega
  constructor
  · exact (hnodup.append (List.Nodup.map hsupply List.nodup_range') hfresh).sublist h.2
  · intro a ha
    rw [← draws_append (Nat.zero_le n) h.1]
    exact (List.mem_append.mp (h.2.subset ha)).elim (fun hold => List.mem_append_left _ (hdrawn a hold))
      (List.mem_append_right _)

/-- A name that was drawn and is gone does not come back. -/
theorem not_mem {n n' : Nat} {names names' : List α} (hsupply : Function.Injective supply)
    (h : Supplies supply n names n' names') {a : α} (hdrawn : a ∈ draws supply 0 n) (hgone : a ∉ names) :
    a ∉ names' := by
  intro hback
  rcases List.mem_append.mp (h.2.subset hback) with hold | hnew
  · exact hgone hold
  · obtain ⟨i, -, hi, rfl⟩ := mem_draws.mp hdrawn
    obtain ⟨j, hj, -, hij⟩ := mem_draws.mp hnew
    have heq := hsupply hij
    omega

end Supplies

end Supply
