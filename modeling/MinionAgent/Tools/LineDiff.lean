import MinionAgent.Library.TerminatedLines
import MinionAgent.Tools.EditText
import MinionAgent.Tools.JsDiffSearch

/-!
# MinionAgent.Tools.LineDiff

The line diff of two texts (`tokenize_lines`, `diff_lines` and `_split_lines` of
`tools/builtin/_jsdiff.py`).

* `tokenizeLines_eq` — the tokens of a text are its lines, with their endings;
* `diffLines_isDiff` — so the components are a diff of the lines of two texts;
* `splitLines_value` — and the lines of a component are its tokens.
-/

namespace MinionAgent

namespace JsDiff

open TerminatedLines (IsLines lines content)

/-- A JavaScript string. -/
abbrev Text : Type := Edit.Units

/-! ## Tokens -/

/-- `_LINE_SEPARATOR.split`: pieces and separators in turn. -/
def splitSeparators : Text → List Text
  | [] => [[]]
  | [u] => if u = 10 then [[], [10], []] else [[u]]
  | u :: v :: text =>
    if u = 10 then [] :: [10] :: splitSeparators (v :: text)
    else if u = 13 ∧ v = 10 then [] :: [13, 10] :: splitSeparators text
    else (splitSeparators (v :: text)).modifyHead (u :: ·)

/-- Each separator is merged into the line before. -/
def mergeSeparators : List Text → List Text
  | piece :: separator :: pieces => (piece ++ separator) :: mergeSeparators pieces
  | pieces => pieces

/-- What is done with the pieces: an empty one at the end is dropped first. -/
def joinPieces (pieces : List Text) : List Text :=
  mergeSeparators (if pieces.getLast? = some [] then pieces.dropLast else pieces)

/-- `tokenize_lines`. -/
def tokenizeLines (value : Text) : List Text := joinPieces (splitSeparators value)

/-- `diff_lines`. -/
def diffLines (old new : Text) : List (Component Text) :=
  diffTokens ((tokenizeLines old).filter (· ≠ [])) ((tokenizeLines new).filter (· ≠ []))

/-- `_split_lines`. -/
def splitLines (text : Text) : List Text :=
  let result := (text.splitOn 10).map (· ++ [10])
  if text.getLast? = some 10 then result.dropLast
  else result.dropLast ++ (result.getLast?.map List.dropLast).toList

/-! ## Tokens are lines -/

/-- There is one piece more than separators. -/
theorem length_splitSeparators (text : Text) : (splitSeparators text).length % 2 = 1 := by
  fun_induction splitSeparators text <;> simp_all <;> omega

theorem joinPieces_cons {piece separator : Text} {pieces : List Text} (h : pieces ≠ []) :
    joinPieces (piece :: separator :: pieces) = (piece ++ separator) :: joinPieces pieces := by
  obtain ⟨next, more, rfl⟩ := List.exists_cons_of_ne_nil h
  simp only [joinPieces, List.getLast?_cons_cons, List.dropLast_cons_cons]
  split
  · rfl
  · rfl

/-- A unit before the pieces is before the first of their lines. -/
theorem joinPieces_modifyHead {u : UInt16} {pieces : List Text} (h : pieces.length % 2 = 1) :
    joinPieces (pieces.modifyHead (u :: ·)) =
      match joinPieces pieces with
      | [] => [[u]]
      | line :: more => (u :: line) :: more := by
  match pieces with
  | [] => simp at h
  | [piece] => cases piece <;> rfl
  | [piece, separator] => simp at h
  | piece :: separator :: next :: more =>
    rw [List.modifyHead_cons, joinPieces_cons (by simp), joinPieces_cons (by simp)]
    rfl

/-- The tokens of a text are its lines. -/
theorem tokenizeLines_eq (value : Text) : tokenizeLines value = lines 10 value := by
  have hne (text : Text) : splitSeparators text ≠ [] := fun h => by
    have := length_splitSeparators text
    rw [h] at this
    cases this
  rw [tokenizeLines]
  fun_induction splitSeparators value with
  | case1 => rfl
  | case2 => rfl
  | case3 u hu =>
    rw [lines, if_neg hu]
    rfl
  | case4 v text ih =>
    rw [joinPieces_cons (hne _), ih]
    rfl
  | case5 u v text h10 hcr ih =>
    obtain ⟨rfl, rfl⟩ := hcr
    rw [joinPieces_cons (hne _), ih]
    rfl
  | case6 u v text h10 hcr ih =>
    rw [joinPieces_modifyHead (length_splitSeparators _), ih, lines.eq_2 10 u, if_neg h10]
    cases lines 10 (v :: text) <;> rfl

/-- The line diff is the diff of the lines. -/
theorem diffLines_eq (old new : Text) : diffLines old new = diffTokens (lines 10 old) (lines 10 new) := by
  have hfilter (text : Text) : (tokenizeLines text).filter (· ≠ []) = lines 10 text := by
    rw [tokenizeLines_eq, List.filter_eq_self]
    exact fun line hline => decide_eq_true ((TerminatedLines.lines_isLines text).ne_nil line hline)
  rw [diffLines, hfilter, hfilter]

theorem diffLines_isDiff (old new : Text) : IsDiff (lines 10 old) (lines 10 new) (diffLines old new) :=
  diffLines_eq old new ▸ (diffTokens_isDiff _ _).1

/-- The tokens of a component are lines. -/
theorem isLines_tokens {old new : Text} {c : Component Text} (h : c ∈ diffLines old new) :
    IsLines 10 c.tokens := by
  have hdiff := diffLines_isDiff old new
  obtain ⟨front, back, hsplit⟩ := List.append_of_mem h
  -- they are a run of the lines of either text
  have hrun {part : Component Text → Bool} {text : Text}
      (htokens : ((diffLines old new).filter part).flatMap Component.tokens = lines 10 text) (hc : part c = true) :
      IsLines 10 c.tokens := by
    have hlines : IsLines 10 (lines 10 text) := TerminatedLines.lines_isLines text
    rw [← htokens, hsplit, List.filter_append, List.filter_cons_of_pos hc, List.flatMap_append,
      List.flatMap_cons] at hlines
    exact hlines.of_append.2.of_append.1
  cases hc : c.added with
  | false => exact hrun hdiff.oldTokens (by simp [hc])
  | true =>
    have hremoved : c.removed = false := by simpa [hc] using hdiff.exclusive c h
    exact hrun hdiff.newTokens (by simp [hremoved])

/-- Some lines, put together, are split into themselves. -/
theorem splitLines_flatten {ls : List Text} (h : IsLines 10 ls) (hne : ls ≠ []) : splitLines ls.flatten = ls := by
  have hends {ls : List Text} (hall : ∀ l ∈ ls, l = content 10 l ++ [10]) :
      (ls.map (content 10)).map (· ++ [10]) = ls := by
    rw [List.map_map]
    exact (List.map_congr_left fun l hl => (hall l hl).symm).trans (List.map_id ls)
  obtain ⟨hparts, hall⟩ | ⟨front, l, rfl, hl, hlast, hparts, hall⟩ := h.splitOn_flatten
  · -- what is behind the last ending is left out
    have hend : ls.flatten.getLast? = some 10 := by
      obtain ⟨front, l, rfl⟩ := List.eq_nil_or_concat' ls |>.resolve_left hne
      have hl := hall l (by simp)
      rw [List.flatten_append, List.flatten_singleton, hl]
      simp
    rw [splitLines, if_pos hend, hparts, List.map_append, hends hall]
    simp
  · -- the last line keeps none
    have hend : (front ++ [l]).flatten.getLast? ≠ some 10 := by
      obtain ⟨init, u, rfl⟩ := List.eq_nil_or_concat' l |>.resolve_left hl
      have hu : u ≠ 10 := fun hu => hlast (by simp [hu])
      simpa using hu
    rw [splitLines, if_neg hend, hparts, List.map_append, List.map_append, hends hall,
      List.map_singleton, TerminatedLines.content_of_not_mem hlast]
    simp

/-- The lines of a component are its tokens. -/
theorem splitLines_value {old new : Text} {c : Component Text} (h : c ∈ diffLines old new) :
    splitLines c.value = c.tokens :=
  splitLines_flatten (isLines_tokens h) ((diffLines_isDiff old new).nonempty c h)

end JsDiff

end MinionAgent
