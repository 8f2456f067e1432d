import Mathlib.Data.List.Basic

/-!
# MinionAgent.Library.Lines

The lines of a text, each of which ends at LF, CR LF or CR; after a last break
there is no empty line.

* `linesFrom` — the lines, when a line was begun;
* `Scanner` — a line and whether a LF goes with the break before it, one
  character after another;
* `Scanner.feed_append`, `Scanner.feed_flush` — the lines do not depend on
  where the text is cut.
-/

namespace Lines

/-- LF and CR. -/
def IsBreak (c : Char) : Prop := c = '\n' ∨ c = '\r'

instance (c : Char) : Decidable (IsBreak c) := inferInstanceAs (Decidable (_ ∨ _))

/-- A LF at the beginning is left out. -/
def dropLf : List Char → List Char
  | '\n' :: text => text
  | text => text

theorem length_dropLf_le (text : List Char) : (dropLf text).length ≤ text.length := by
  unfold dropLf
  split <;> simp

/-- The lines of a text behind a line that was begun. -/
def linesFrom (line : List Char) : List Char → List (List Char)
  | [] => if line = [] then [] else [line]
  | c :: text =>
    if c = '\r' then line :: linesFrom [] (dropLf text)
    else if c = '\n' then line :: linesFrom [] text
    else linesFrom (line ++ [c]) text
termination_by text => text.length
decreasing_by
  all_goals
    have := length_dropLf_le text
    simp only [List.length_cons]
    omega

/-- The lines of a text. -/
def lines (text : List Char) : List (List Char) := linesFrom [] text

theorem linesFrom_nil (line : List Char) : linesFrom line [] = if line = [] then [] else [line] := by
  rw [linesFrom]

theorem linesFrom_cr (line text : List Char) : linesFrom line ('\r' :: text) = line :: linesFrom [] (dropLf text) := by
  rw [linesFrom, if_pos rfl]

theorem linesFrom_lf (line text : List Char) : linesFrom line ('\n' :: text) = line :: linesFrom [] text := by
  rw [linesFrom, if_neg (by decide), if_pos rfl]

theorem linesFrom_other {line text : List Char} {c : Char} (hc : ¬ IsBreak c) :
    linesFrom line (c :: text) = linesFrom (line ++ [c]) text := by
  rw [linesFrom, if_neg fun h => hc (.inr h), if_neg fun h => hc (.inl h)]

/-- A text without a break continues the line. -/
theorem linesFrom_append {line front : List Char} (hfront : ∀ c ∈ front, ¬ IsBreak c) (text : List Char) :
    linesFrom line (front ++ text) = linesFrom (line ++ front) text := by
  induction front generalizing line with
  | nil => simp
  | cons c front ih =>
    rw [List.cons_append, linesFrom_other (hfront c (List.mem_cons_self ..)),
      ih fun c hc => hfront c (List.mem_cons_of_mem _ hc)]
    simp

theorem lines_eq_singleton {text : List Char} (hne : text ≠ []) (htext : ∀ c ∈ text, ¬ IsBreak c) :
    lines text = [text] := by
  have happend := @linesFrom_append [] text htext []
  rw [List.append_nil, List.nil_append, linesFrom_nil, if_neg hne] at happend
  exact happend

/-- A line has no break in it. -/
theorem not_isBreak_of_mem_linesFrom {line text : List Char} (hline : ∀ c ∈ line, ¬ IsBreak c) :
    ∀ l ∈ linesFrom line text, ∀ c ∈ l, ¬ IsBreak c := by
  induction line, text using linesFrom.induct with
  | case1 =>
    intro l hl
    rw [linesFrom_nil, if_pos rfl] at hl
    cases hl
  | case2 line hne =>
    intro l hl
    rw [linesFrom_nil, if_neg hne] at hl
    obtain rfl := List.mem_singleton.mp hl
    exact hline
  | case3 line text ih =>
    intro l hl
    rw [linesFrom_cr] at hl
    rcases List.mem_cons.mp hl with rfl | hl
    · exact hline
    · exact ih (by simp) l hl
  | case4 line text _ ih =>
    intro l hl
    rw [linesFrom_lf] at hl
    rcases List.mem_cons.mp hl with rfl | hl
    · exact hline
    · exact ih (by simp) l hl
  | case5 line c text hcr hlf ih =>
    intro l hl
    have hc : ¬ IsBreak c := by
      rintro (h | h)
      · exact hlf h
      · exact hcr h
    rw [linesFrom_other hc] at hl
    refine ih ?_ l hl
    intro c' hc'
    rcases List.mem_append.mp hc' with hc' | hc'
    · exact hline c' hc'
    · obtain rfl := List.mem_singleton.mp hc'
      exact hc

/-! ## One character after another -/

/-- The line that was begun, and whether a LF that comes next belongs to the
break before it. -/
structure Scanner where
  line : List Char := []
  skipLf : Bool := false

namespace Scanner

/-- One character: the line that it ends. -/
def step (s : Scanner) (c : Char) : List (List Char) × Scanner :=
  if s.skipLf && c == '\n' then ([], { s with skipLf := false })
  else if c = '\r' ∨ c = '\n' then ([s.line], { skipLf := c == '\r' })
  else ([], { line := s.line ++ [c] })

/-- A piece of the text: the lines that end in it. -/
def feed (s : Scanner) : List Char → List (List Char) × Scanner
  | [] => ([], s)
  | c :: text => ((s.step c).1 ++ ((s.step c).2.feed text).1, ((s.step c).2.feed text).2)

/-- The end of the text. -/
def flush (s : Scanner) : List (List Char) := if s.line = [] then [] else [s.line]

theorem feed_append (s : Scanner) (text₁ text₂ : List Char) :
    s.feed (text₁ ++ text₂) =
      ((s.feed text₁).1 ++ ((s.feed text₁).2.feed text₂).1, ((s.feed text₁).2.feed text₂).2) := by
  induction text₁ generalizing s with
  | nil => rfl
  | cons c text₁ ih => simp [feed, ih]

/-- What the scanner still gives, of a text and its end. -/
def rest (s : Scanner) (text : List Char) : List (List Char) :=
  linesFrom s.line (if s.skipLf then dropLf text else text)

theorem step_rest (s : Scanner) (c : Char) (text : List Char) :
    s.rest (c :: text) = (s.step c).1 ++ (s.step c).2.rest text := by
  have hdrop : c ≠ '\n' → dropLf (c :: text) = c :: text := by
    intro hne
    unfold dropLf
    split
    · simp_all
    · rfl
  by_cases hskip : s.skipLf = true ∧ c = '\n'
  · obtain ⟨hs, rfl⟩ := hskip
    simp [rest, step, hs, dropLf]
  · have hkeep : (if s.skipLf then dropLf (c :: text) else c :: text) = c :: text := by
      by_cases hs : s.skipLf = true
      · rw [if_pos hs, hdrop fun hc => hskip ⟨hs, hc⟩]
      · rw [if_neg hs]
    have hstep : (s.skipLf && c == '\n') = false := by simpa using hskip
    rw [rest, hkeep, step, hstep]
    by_cases hcr : c = '\r'
    · subst hcr
      simp [rest, linesFrom_cr]
    · by_cases hlf : c = '\n'
      · subst hlf
        simp [rest, linesFrom_lf]
      · have hc : ¬ IsBreak c := not_or.mpr ⟨hlf, hcr⟩
        simp [rest, linesFrom_other hc, hcr, hlf]

theorem feed_rest (s : Scanner) (text more : List Char) :
    s.rest (text ++ more) = (s.feed text).1 ++ (s.feed text).2.rest more := by
  induction text generalizing s with
  | nil => rfl
  | cons c text ih => rw [List.cons_append, step_rest, ih, feed, List.append_assoc]

theorem rest_nil (s : Scanner) : s.rest [] = s.flush := by
  have hnil : (if s.skipLf then dropLf [] else []) = [] := by split <;> rfl
  rw [rest, hnil, linesFrom_nil, flush]

/-- The lines that end in the text, and the line at its end, are its lines. -/
theorem feed_flush (text : List Char) : (feed {} text).1 ++ (feed {} text).2.flush = lines text := by
  have hrest := feed_rest {} text []
  rw [List.append_nil, rest_nil] at hrest
  exact hrest.symm

end Scanner

end Lines
