import Mathlib.Algebra.GroupWithZero.Nat
import Mathlib.Data.List.Basic

/-!
# MinionAgent.Library.Table

Lists as tables of numbered entries: reading one after an entry was changed
(`getElem?_modify_cases`, `Changed`) or added (`getElem?_concat_cases`).
-/

namespace Table

variable {α : Type} {l : List α}

/-- An entry of a table with one changed is the changed one or an old one. -/
theorem getElem?_modify_cases {i j : ℕ} {f : α → α} {a : α} (h : (l.modify i f)[j]? = some a) :
    (i = j ∧ ∃ old, l[j]? = some old ∧ a = f old) ∨ i ≠ j ∧ l[j]? = some a := by
  by_cases heq : i = j
  · subst heq
    rw [List.getElem?_modify_eq] at h
    obtain ⟨old, hold, rfl⟩ := Option.map_eq_some_iff.mp h
    exact .inl ⟨rfl, old, hold, rfl⟩
  · rw [List.getElem?_modify_ne _ _ heq] at h
    exact .inr ⟨heq, h⟩

/-- What is true of an entry, and of the changed one, is true of the entry
that is there then. -/
theorem exists_getElem?_modify {i j : ℕ} {f : α → α} {P : α → Prop} {a : α} (h : l[j]? = some a) (hP : P a)
    (hf : i = j → P (f a)) : ∃ a', (l.modify i f)[j]? = some a' ∧ P a' := by
  by_cases heq : i = j
  · exact ⟨f a, by simp [heq, h], hf heq⟩
  · exact ⟨a, by simp [heq, h], hP⟩

/-- What is read of an entry that the change keeps is read as before. -/
theorem read_modify {β : Type} {i j : ℕ} {f : α → α} (read : Option α → β)
    (hf : ∀ a, read (some (f a)) = read (some a)) :
    read (l.modify i f)[j]? = read l[j]? := by
  rw [List.getElem?_modify]
  by_cases heq : i = j
  · cases h : l[j]? with
    | none => rfl
    | some a => simp [heq, hf]
  · simp [heq]

/-- An entry of a longer table is an old one or the new one. -/
theorem getElem?_concat_cases {new a : α} {j : ℕ} (h : (l ++ [new])[j]? = some a) :
    l[j]? = some a ∨ j = l.length ∧ a = new := by
  rcases Nat.lt_trichotomy j l.length with hlt | heq | hgt
  · exact .inl (by rwa [List.getElem?_append_left hlt] at h)
  · subst heq
    exact .inr ⟨rfl, by simpa using h.symm⟩
  · rw [List.getElem?_eq_none (by simp; omega)] at h
    contradiction

/-- One entry is changed, and the rest stays. -/
structure Changed (l l' : List α) (i : ℕ) (a a' : α) : Prop where
  before : l[i]? = some a
  after : l'[i]? = some a'
  others : ∀ j, j ≠ i → l'[j]? = l[j]?

theorem Changed.cases {l' : List α} {i j : ℕ} {a a' b : α} (h : Changed l l' i a a') (hj : l'[j]? = some b) :
    j = i ∧ b = a' ∨ j ≠ i ∧ l[j]? = some b := by
  by_cases heq : j = i
  · subst heq
    exact .inl ⟨rfl, Option.some.inj (hj.symm.trans h.after)⟩
  · exact .inr ⟨heq, by rwa [h.others j heq] at hj⟩

theorem changed_modify {i : ℕ} {a : α} (h : l[i]? = some a) (f : α → α) : Changed l (l.modify i f) i a (f a) where
  before := h
  after := by simp [h]
  others j hne := by simp [Ne.symm hne]

theorem changed_set {i : ℕ} {a : α} (h : l[i]? = some a) (a' : α) : Changed l (l.set i a') i a a' where
  before := h
  after := by
    have hi := (List.getElem?_eq_some_iff.mp h).1
    simp [hi]
  others j hne := List.getElem?_set_ne (Ne.symm hne)

/-- What is true of the new entry and was true of each one is true of each one. -/
theorem forall_concat {new : α} {P : ℕ → α → Prop} (hall : ∀ j b, l[j]? = some b → P j b) (hP : P l.length new) :
    ∀ j b, (l ++ [new])[j]? = some b → P j b := by
  intro j b hj
  obtain hold | ⟨rfl, rfl⟩ := getElem?_concat_cases hj
  · exact hall j b hold
  · exact hP

variable {l' : List α} {i : ℕ} {a a' : α}

/-- What is true of the changed entry and was true of each one is true of each
one. -/
theorem Changed.forall (h : Changed l l' i a a') {P : ℕ → α → Prop} (hall : ∀ j b, l[j]? = some b → P j b)
    (hP : P i a') :
    ∀ j b, l'[j]? = some b → P j b := by
  intro j b hj
  obtain ⟨rfl, rfl⟩ | ⟨-, hold⟩ := h.cases hj
  · exact hP
  · exact hall j b hold

/-- What is true of the changed entry and was true of the others is true of each
one. -/
theorem Changed.forall_of_ne (h : Changed l l' i a a') {P : ℕ → α → Prop}
    (hothers : ∀ j b, j ≠ i → l[j]? = some b → P j b) (hP : P i a') : ∀ j b, l'[j]? = some b → P j b := by
  intro j b hj
  obtain ⟨rfl, rfl⟩ | ⟨hne, hold⟩ := h.cases hj
  · exact hP
  · exact hothers j b hne hold

/-- A sum changes as the changed entry does. -/
theorem sum_map_set {l : List α} {i : ℕ} {a : α} (h : l[i]? = some a) (f : α → ℕ) (a' : α) :
    ((l.set i a').map f).sum + f a = (l.map f).sum + f a' := by
  induction l generalizing i with
  | nil => simp at h
  | cons b l ih =>
    cases i with
    | zero =>
      obtain rfl := Option.some.inj h
      simp only [List.set_cons_zero, List.map_cons, List.sum_cons]
      omega
    | succ i =>
      have hrest := ih (by simpa using h)
      simp only [List.set_cons_succ, List.map_cons, List.sum_cons]
      omega

/-- A field that the changed entry keeps reads the same everywhere. -/
theorem Changed.bind_eq {β : Type} (h : Changed l l' i a a') {f : α → Option β} (hf : f a' = f a) (j : ℕ) :
    (l'[j]?).bind f = (l[j]?).bind f := by
  by_cases heq : j = i
  · subst heq
    rw [h.after, h.before]
    exact hf
  · rw [h.others j heq]

end Table
