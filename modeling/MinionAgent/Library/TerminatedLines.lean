import Mathlib.Data.List.Basic

/-!
# MinionAgent.Library.TerminatedLines

A text as the lines that make it up, each with the terminator that ends it; only
the last one may have none.

* `lines_isLines`, `flatten_lines` — a text is cut into lines, which put
  together are the text;
* `IsLines.of_append` — a run of lines is itself lines;
* `IsLines.splitOn_flatten` — splitting at the terminator gives the contents of
  the lines, and an empty part where the text ends with it.
-/

namespace TerminatedLines

variable {α : Type*} {nl : α}

/-- Lines with their terminators. -/
inductive IsLines (nl : α) : List (List α) → Prop
  | nil : IsLines nl []
  | last {l} (hne : l ≠ []) (h : nl ∉ l) : IsLines nl [l]
  | cons {l ls} (h : nl ∉ l) (hs : IsLines nl ls) : IsLines nl ((l ++ [nl]) :: ls)

namespace IsLines

variable {as bs ls : List (List α)}

/-- A run of lines is itself lines. -/
theorem of_append (h : IsLines nl (as ++ bs)) : IsLines nl as ∧ IsLines nl bs := by
  induction as with
  | nil => exact ⟨.nil, h⟩
  | cons l as ih =>
    cases h' : as ++ bs with
    | nil =>
      obtain ⟨rfl, rfl⟩ := List.append_eq_nil_iff.1 h'
      exact ⟨h, .nil⟩
    | cons l' ls =>
      rw [List.cons_append, h'] at h
      cases h with
      | cons hl hs =>
        obtain ⟨ha, hb⟩ := ih (h' ▸ hs)
        exact ⟨.cons hl ha, hb⟩

theorem ne_nil (h : IsLines nl ls) : ∀ l ∈ ls, l ≠ [] := by
  induction h with
  | nil => exact fun l hl => absurd hl List.not_mem_nil
  | last hne h => exact List.forall_mem_singleton.2 hne
  | cons h hs ih => exact List.forall_mem_cons.2 ⟨by simp, ih⟩

end IsLines

section lines

variable [DecidableEq α]

/-- The lines of a text. -/
def lines (nl : α) : List α → List (List α)
  | [] => []
  | a :: text =>
    if a = nl then [nl] :: lines nl text
    else
      match lines nl text with
      | [] => [[a]]
      | l :: ls => (a :: l) :: ls

/-- A line without its terminator. -/
def content (nl : α) (l : List α) : List α := if l.getLast? = some nl then l.dropLast else l

@[simp] theorem content_append (l : List α) : content nl (l ++ [nl]) = l := by simp [content]

theorem content_of_not_mem {l : List α} (h : nl ∉ l) : content nl l = l :=
  if_neg fun hl => h (List.mem_of_getLast? hl)

/-- The content of a line does not hold the terminator. -/
theorem not_mem_content {ls : List (List α)} (h : IsLines nl ls) : ∀ l ∈ ls, nl ∉ content nl l := by
  induction h with
  | nil => exact fun l hl => absurd hl List.not_mem_nil
  | last hne h => exact List.forall_mem_singleton.2 (by rwa [content_of_not_mem h])
  | cons h hs ih => exact List.forall_mem_cons.2 ⟨by rwa [content_append], ih⟩

/-- The lines of a text are lines. -/
theorem lines_isLines (text : List α) : IsLines nl (lines nl text) := by
  induction text with
  | nil => exact .nil
  | cons a text ih =>
    rw [lines]
    split
    · exact ih.cons (l := []) List.not_mem_nil
    · rename_i ha
      split
      · exact .last (by simp) (by simpa using Ne.symm ha)
      · rename_i l ls hls
        rw [hls] at ih
        cases ih with
        | last hne h => exact .last (by simp) (by simpa using ⟨Ne.symm ha, h⟩)
        | @cons l _ h hs => exact hs.cons (l := a :: l) (by simpa using ⟨Ne.symm ha, h⟩)

/-- Put together, the lines of a text are the text. -/
theorem flatten_lines (text : List α) : (lines nl text).flatten = text := by
  induction text with
  | nil => rfl
  | cons a text ih =>
    rw [lines]
    split
    · rename_i ha
      rw [List.flatten_cons, ih, ha, List.singleton_append]
    · split
      · rename_i hls
        rw [← ih, hls]
        rfl
      · rename_i l ls hls
        rw [← ih, hls]
        rfl

/-- Lines put together split at the terminator into their contents, and an empty part at the end
unless the last line has no terminator. -/
theorem IsLines.splitOn_flatten {ls : List (List α)} (h : IsLines nl ls) :
    (ls.flatten.splitOn nl = ls.map (content nl) ++ [[]] ∧ ∀ l ∈ ls, l = content nl l ++ [nl]) ∨
      ∃ front l, ls = front ++ [l] ∧ l ≠ [] ∧ nl ∉ l ∧ ls.flatten.splitOn nl = ls.map (content nl) ∧
        ∀ l ∈ front, l = content nl l ++ [nl] := by
  induction h with
  | nil => exact .inl ⟨List.splitOn_nil nl, fun l hl => absurd hl List.not_mem_nil⟩
  | @last l hne h =>
    refine .inr ⟨[], l, rfl, hne, h, ?_, fun l hl => absurd hl List.not_mem_nil⟩
    rw [List.flatten_singleton, List.splitOn_eq_singleton h, List.map_singleton, content_of_not_mem h]
  | @cons l ls h hs ih =>
    have hsplit : ((l ++ [nl]) :: ls).flatten.splitOn nl = l :: ls.flatten.splitOn nl := by
      rw [List.flatten_cons, List.append_assoc, List.singleton_append,
        List.splitOn_append_cons_self_of_not_mem h]
    obtain ⟨hparts, hall⟩ | ⟨front, last, rfl, hne, hlast, hparts, hall⟩ := ih
    · refine .inl ⟨by rw [hsplit, hparts, List.map_cons, content_append, List.cons_append], ?_⟩
      exact List.forall_mem_cons.2 ⟨by rw [content_append], hall⟩
    · refine .inr ⟨(l ++ [nl]) :: front, last, rfl, hne, hlast, ?_, ?_⟩
      · rw [hsplit, hparts, List.map_cons, content_append]
      · exact List.forall_mem_cons.2 ⟨by rw [content_append], hall⟩

end lines

end TerminatedLines
