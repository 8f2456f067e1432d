import Mathlib.Data.List.Basic

/-!
# MinionAgent.Library.SplitOn

A text split at a separator: how many parts there are, that they are of the text,
and that none holds the separator.
-/

namespace SplitOn

variable {α : Type} [DecidableEq α]

/-- Every separator ends a part, and what is behind the last one is one too. -/
theorem length_splitOn (sep : α) (text : List α) : (text.splitOn sep).length = text.count sep + 1 := by
  induction text with
  | nil => simp
  | cons c text ih =>
    rw [List.splitOn_cons_eq_if_modifyHead]
    by_cases hc : c = sep
    · simp [hc, ih]
    · simp [hc, ih]

/-- What is split holds no separator. -/
theorem not_mem_of_mem_splitOn {sep : α} {text part : List α} (h : part ∈ text.splitOn sep) : sep ∉ part := by
  induction text generalizing part with
  | nil =>
    rw [List.splitOn_nil, List.mem_singleton] at h
    simp [h]
  | cons c text ih =>
    rw [List.splitOn_cons_eq_if_modifyHead] at h
    cases hparts : text.splitOn sep with
    | nil => exact absurd hparts (List.splitOn_ne_nil sep text)
    | cons first rest =>
      rw [hparts] at h ih
      split_ifs at h with hc
      · cases List.mem_cons.mp h with
        | inl hnil => simp [hnil]
        | inr hmem => exact ih hmem
      · rw [List.modifyHead_cons, List.mem_cons] at h
        cases h with
        | inl hhead =>
          have hfirst := ih List.mem_cons_self
          simp only [beq_iff_eq] at hc
          simp [hhead, hfirst, Ne.symm hc]
        | inr hmem => exact ih (List.mem_cons_of_mem _ hmem)

/-- What is split is of the text. -/
theorem subset_of_mem_splitOn {sep : α} {text part : List α} (h : part ∈ text.splitOn sep) : part ⊆ text := by
  induction text generalizing part with
  | nil =>
    rw [List.splitOn_nil, List.mem_singleton] at h
    simp [h]
  | cons c text ih =>
    rw [List.splitOn_cons_eq_if_modifyHead] at h
    cases hparts : text.splitOn sep with
    | nil => exact absurd hparts (List.splitOn_ne_nil sep text)
    | cons first rest =>
      rw [hparts] at h ih
      split_ifs at h with hc
      · cases List.mem_cons.mp h with
        | inl hnil => simp [hnil]
        | inr hmem => exact List.subset_cons_of_subset c (ih hmem)
      · rw [List.modifyHead_cons, List.mem_cons] at h
        cases h with
        | inl hhead => exact hhead ▸ List.cons_subset_cons c (ih List.mem_cons_self)
        | inr hmem => exact List.subset_cons_of_subset c (ih (List.mem_cons_of_mem _ hmem))

end SplitOn
