import MinionAgent.Library.SplitOn
import MinionAgent.Tools.BashOutput

/-!
# MinionAgent.Tools.TailTruncation

What `truncateTail` keeps of a text: its last lines, whatever is before them
(`truncateTail_of_exceeds`), or the end of a last line that is over the limit
(`truncateTail_of_long_line`).
-/

namespace MinionAgent

/-! ## Lines -/

theorem endsWithNewline_append {text : List Char} (h : text ≠ []) (before : List Char) :
    endsWithNewline (before ++ text) = endsWithNewline text := by
  rw [endsWithNewline, endsWithNewline, List.getLast?_append_of_ne_nil _ h]

theorem endsWithNewline_concat (text : List Char) : endsWithNewline (text ++ ['\n']) = true := by
  simp [endsWithNewline]

theorem eq_concat_of_endsWithNewline {text : List Char} (h : endsWithNewline text = true) :
    ∃ before, text = before ++ ['\n'] := by
  simp only [endsWithNewline, beq_iff_eq] at h
  exact List.getLast?_eq_some_iff.mp h

/-- The lines up to a newline and those behind it. -/
theorem splitLinesForCounting_append (before after : List Char) :
    splitLinesForCounting (before ++ '\n' :: after) = before.splitOn '\n' ++ splitLinesForCounting after := by
  rw [splitLinesForCounting, if_neg (by simp)]
  by_cases hafter : after = []
  · subst hafter
    rw [if_pos (endsWithNewline_concat before), List.splitOn_append_cons_self, List.splitOn_nil,
      List.dropLast_concat]
    simp [splitLinesForCounting]
  · have hends : endsWithNewline (before ++ '\n' :: after) = endsWithNewline after := by
      have hsplit : before ++ '\n' :: after = (before ++ ['\n']) ++ after := by simp
      rw [hsplit, endsWithNewline_append hafter]
    rw [hends, List.splitOn_append_cons_self, splitLinesForCounting, if_neg hafter,
      List.dropLast_append_of_ne_nil (List.splitOn_ne_nil '\n' after)]
    split
    · rfl
    · rfl

theorem splitLinesForCounting_of_not_mem {text : List Char} (h : '\n' ∉ text) (hne : text ≠ []) :
    splitLinesForCounting text = [text] := by
  have hends : endsWithNewline text = false := by
    by_contra hends
    obtain ⟨before, rfl⟩ := eq_concat_of_endsWithNewline (by simpa using hends)
    simp at h
  rw [splitLinesForCounting, if_neg hne, hends, List.splitOn_eq_singleton h]
  rfl

theorem splitLinesForCounting_ne_nil {text : List Char} (h : text ≠ []) : splitLinesForCounting text ≠ [] := by
  by_cases hends : endsWithNewline text
  · obtain ⟨before, rfl⟩ := eq_concat_of_endsWithNewline hends
    rw [splitLinesForCounting_append]
    simp [List.splitOn_ne_nil]
  · rw [splitLinesForCounting, if_neg h, if_neg hends]
    exact List.splitOn_ne_nil '\n' text

/-- The lines joined again are the text without its last newline. -/
theorem joinLines_splitLinesForCounting (text : List Char) :
    joinLines (splitLinesForCounting text) = if endsWithNewline text then text.dropLast else text := by
  split
  case isTrue hends =>
    obtain ⟨before, rfl⟩ := eq_concat_of_endsWithNewline hends
    rw [splitLinesForCounting_append]
    simp [splitLinesForCounting, joinLines]
  case isFalse hends =>
    rw [splitLinesForCounting, if_neg hends]
    split
    case isTrue hnil => simp [hnil, joinLines]
    case isFalse => exact List.intercalate_splitOn '\n'

/-- Every newline ends a line, and what is behind the last one is one too. -/
theorem length_splitLinesForCounting (text : List Char) :
    (splitLinesForCounting text).length =
      text.count '\n' + if text = [] ∨ endsWithNewline text then 0 else 1 := by
  rw [splitLinesForCounting]
  by_cases hnil : text = []
  · simp [hnil]
  · by_cases hends : endsWithNewline text
    · simp [hnil, hends, SplitOn.length_splitOn]
    · simp [hnil, hends, SplitOn.length_splitOn]

/-- A text is a part that ends where a line starts, and the line at its end. -/
theorem exists_last_line (text : List Char) :
    ∃ before line, text = before ++ line ∧ '\n' ∉ line ∧ (before = [] ∨ endsWithNewline before) := by
  induction text with
  | nil => exact ⟨[], [], rfl, by simp, .inl rfl⟩
  | cons c text ih =>
    obtain ⟨before, line, rfl, hline, hbefore⟩ := ih
    by_cases hnil : before = []
    · subst hnil
      by_cases hc : c = '\n'
      · exact ⟨[c], line, rfl, hline, .inr (by simp [endsWithNewline, hc])⟩
      · refine ⟨[], c :: line, rfl, ?_, .inl rfl⟩
        simp [hline, Ne.symm hc]
    · refine ⟨c :: before, line, rfl, hline, .inr ?_⟩
      have hends := hbefore.resolve_left hnil
      rwa [← List.singleton_append, endsWithNewline_append hnil]

/-- Behind a part that ends where a line starts, the lines are those of the
rest. -/
theorem splitLinesForCounting_of_boundary {before : List Char} (h : before = [] ∨ endsWithNewline before)
    (text : List Char) :
    ∃ lines, splitLinesForCounting (before ++ text) = lines ++ splitLinesForCounting text := by
  rcases h with rfl | hends
  · exact ⟨[], rfl⟩
  · obtain ⟨start, rfl⟩ := eq_concat_of_endsWithNewline hends
    refine ⟨start.splitOn '\n', ?_⟩
    rw [List.append_assoc, List.singleton_append, splitLinesForCounting_append]

/-! ## What the loop keeps -/

theorem joinLines_cons (line : List Char) (lines : List (List Char)) :
    utf8Len (joinLines (line :: lines)) =
      utf8Len line + (if lines.isEmpty then 0 else 1) + utf8Len (joinLines lines) := by
  cases lines with
  | nil => simp [joinLines]
  | cons next lines =>
    have hsize : ('\n').utf8Size = 1 := by decide
    simp [joinLines, hsize]
    omega

theorem utf8Len_joinLines_append (lines₁ lines₂ : List (List Char)) :
    utf8Len (joinLines lines₂) ≤ utf8Len (joinLines (lines₁ ++ lines₂)) := by
  induction lines₁ with
  | nil => simp
  | cons line lines₁ ih =>
    rw [List.cons_append, joinLines_cons]
    omega

namespace Kept

/-- `kept_bytes` is the size of what would be returned. -/
def Counted (kept : Kept) : Prop := kept.bytes = utf8Len (joinLines kept.lines)

theorem counted_start : Counted {} := rfl

@[simp] theorem add_lines (kept : Kept) (line : List Char) : (kept.add line).lines = line :: kept.lines := rfl

theorem Counted.bytes_add {kept : Kept} (h : kept.Counted) (line : List Char) :
    kept.bytes + kept.lineBytes line = utf8Len (joinLines (line :: kept.lines)) := by
  rw [joinLines_cons, h, lineBytes]
  omega

theorem Counted.add {kept : Kept} (h : kept.Counted) (line : List Char) : (kept.add line).Counted := h.bytes_add line

/-- All of the lines, last line first, are kept. -/
def addAll (kept : Kept) (lines : List (List Char)) : Kept := lines.foldl add kept

theorem addAll_lines (kept : Kept) (lines : List (List Char)) :
    (kept.addAll lines).lines = lines.reverse ++ kept.lines := by
  induction lines generalizing kept with
  | nil => rfl
  | cons line lines ih =>
    have hcons : kept.addAll (line :: lines) = (kept.add line).addAll lines := rfl
    rw [hcons, ih]
    simp [add]

theorem addAll_lastLinePartial (kept : Kept) (lines : List (List Char)) :
    (kept.addAll lines).lastLinePartial = kept.lastLinePartial := by
  induction lines generalizing kept with
  | nil => rfl
  | cons line lines ih =>
    have hcons : kept.addAll (line :: lines) = (kept.add line).addAll lines := rfl
    rw [hcons, ih]
    rfl

theorem Counted.addAll {kept : Kept} (h : kept.Counted) (lines : List (List Char)) : (kept.addAll lines).Counted := by
  induction lines generalizing kept with
  | nil => exact h
  | cons line lines ih => exact ih (h.add line)

end Kept

variable {maxLines maxBytes : Nat}

/-- The loop keeps each of the lines. -/
def Fits (maxLines maxBytes : Nat) : Kept → List (List Char) → Prop
  | _, [] => True
  | kept, line :: rest =>
    kept.lines.length < maxLines ∧ kept.bytes + kept.lineBytes line ≤ maxBytes ∧
      Fits maxLines maxBytes (kept.add line) rest

variable {kept : Kept} {text : List Char} {lines : List (List Char)}

theorem keepLines_of_fits (h : Fits maxLines maxBytes kept lines) (rest : List (List Char)) :
    keepLines maxLines maxBytes kept (lines ++ rest) = keepLines maxLines maxBytes (kept.addAll lines) rest := by
  induction lines generalizing kept with
  | nil => rfl
  | cons line lines ih =>
    obtain ⟨hlength, hbytes, hrest⟩ := h
    rw [List.cons_append, keepLines, if_neg (by omega), if_neg (by omega), ih hrest]
    rfl

/-- Where the loop stops inside the lines, it does not see the rest. -/
theorem keepLines_of_not_fits (h : ¬ Fits maxLines maxBytes kept lines) (rest : List (List Char)) :
    keepLines maxLines maxBytes kept (lines ++ rest) = keepLines maxLines maxBytes kept lines := by
  induction lines generalizing kept with
  | nil => exact absurd trivial h
  | cons line lines ih =>
    rw [List.cons_append, keepLines, keepLines]
    by_cases hlength : maxLines ≤ kept.lines.length
    · rw [if_pos hlength, if_pos hlength]
    · rw [if_neg hlength, if_neg hlength]
      by_cases hbytes : maxBytes < kept.bytes + kept.lineBytes line
      · rw [if_pos hbytes, if_pos hbytes]
      · rw [if_neg hbytes, if_neg hbytes]
        exact ih fun hfits => h ⟨by omega, by omega, hfits⟩

theorem fits_of_le (hcounted : kept.Counted) (hlength : lines.length + kept.lines.length ≤ maxLines)
    (hbytes : utf8Len (joinLines (lines.reverse ++ kept.lines)) ≤ maxBytes) : Fits maxLines maxBytes kept lines := by
  induction lines generalizing kept with
  | nil => trivial
  | cons line lines ih =>
    have hrest : (line :: lines).reverse ++ kept.lines = lines.reverse ++ (line :: kept.lines) := by simp
    rw [hrest] at hbytes
    rw [List.length_cons] at hlength
    have hline := utf8Len_joinLines_append lines.reverse (line :: kept.lines)
    have hadd := hcounted.bytes_add line
    refine ⟨by omega, by omega, ih (hcounted.add line) ?_ hbytes⟩
    show lines.length + (kept.lines.length + 1) ≤ maxLines
    omega

theorem le_of_fits (hcounted : kept.Counted) (hne : lines ≠ []) (h : Fits maxLines maxBytes kept lines) :
    lines.length + kept.lines.length ≤ maxLines ∧ utf8Len (joinLines (lines.reverse ++ kept.lines)) ≤ maxBytes := by
  induction lines generalizing kept with
  | nil => exact absurd rfl hne
  | cons line lines ih =>
    obtain ⟨hlength, hbytes, hfits⟩ := h
    by_cases hnil : lines = []
    · subst hnil
      have hadd := hcounted.bytes_add line
      simp only [List.length_singleton, List.reverse_singleton, List.singleton_append]
      omega
    · obtain ⟨hlength', hbytes'⟩ := ih (hcounted.add line) hnil hfits
      rw [Kept.add_lines, List.length_cons] at hlength'
      rw [Kept.add_lines] at hbytes'
      rw [List.length_cons, List.reverse_cons, List.append_assoc, List.singleton_append]
      exact ⟨by omega, hbytes'⟩

/-- The loop from its start keeps the lines, last line first, if and only if
they are within both limits. -/
theorem fits_reverse_iff (hne : lines ≠ []) :
    Fits maxLines maxBytes {} lines.reverse ↔ lines.length ≤ maxLines ∧ utf8Len (joinLines lines) ≤ maxBytes := by
  constructor
  · intro h
    have hle := le_of_fits Kept.counted_start (by simpa using hne) h
    simpa using hle
  · intro ⟨hlength, hbytes⟩
    exact fits_of_le Kept.counted_start (by simpa using hlength) (by simpa using hbytes)

/-! ## Truncation at a line -/

/-- Two ends of the loop return the same text. -/
structure Kept.Same (kept kept' : Kept) : Prop where
  lines : kept.lines = kept'.lines
  lastLinePartial : kept.lastLinePartial = kept'.lastLinePartial

theorem Kept.Same.refl (kept : Kept) : kept.Same kept := ⟨rfl, rfl⟩

theorem Kept.stop_same (h : kept.lines ≠ []) (line : List Char) : (kept.stop maxBytes line).Same kept := by
  rw [Kept.stop, if_neg (by simpa using h)]
  exact ⟨rfl, rfl⟩

/-- After lines that are kept, of which there are as many as may be or whose
bytes leave no room for a newline, nothing else is. -/
theorem keepLines_same_of_full (hne : kept.lines ≠ [])
    (h : maxLines ≤ kept.lines.length ∨ ∀ line ∈ lines.head?, maxBytes < kept.bytes + kept.lineBytes line) :
    (keepLines maxLines maxBytes kept lines).Same kept := by
  cases lines with
  | nil => exact .refl kept
  | cons line lines =>
    rw [keepLines]
    by_cases hlength : maxLines ≤ kept.lines.length
    · rw [if_pos hlength]
      exact .refl kept
    · rw [if_neg hlength, if_pos (h.resolve_left hlength line rfl)]
      exact Kept.stop_same hne line

/-- Of a text that is not within the limits, what is kept does not depend on
the lines before it. -/
theorem keepLines_same_of_exceeds (hne : text ≠ [])
    (h : ¬ ((splitLinesForCounting text).length ≤ maxLines ∧ utf8Len text ≤ maxBytes))
    (before : List (List Char)) :
    (keepLines maxLines maxBytes {} (before ++ splitLinesForCounting text).reverse).Same
      (keepLines maxLines maxBytes {} (splitLinesForCounting text).reverse) := by
  have hlines := splitLinesForCounting_ne_nil hne
  rw [List.reverse_append]
  by_cases hfits : Fits maxLines maxBytes {} (splitLinesForCounting text).reverse
  · -- only the newline at the end is over the limit, and a further line needs one
    obtain ⟨hlength, hbytes⟩ := (fits_reverse_iff hlines).mp hfits
    have hkept := keepLines_of_fits hfits []
    rw [List.append_nil, keepLines] at hkept
    rw [keepLines_of_fits hfits, hkept]
    have hall : (Kept.addAll {} (splitLinesForCounting text).reverse).lines = splitLinesForCounting text := by
      rw [Kept.addAll_lines]
      simp
    have hcounted : (Kept.addAll {} (splitLinesForCounting text).reverse).Counted := Kept.counted_start.addAll _
    rw [Kept.Counted, hall] at hcounted
    refine keepLines_same_of_full (by rwa [hall]) (.inr fun line _ => ?_)
    rw [joinLines_splitLinesForCounting] at hbytes hcounted
    split at hbytes
    case isTrue hends =>
      obtain ⟨start, rfl⟩ := eq_concat_of_endsWithNewline hends
      have hsize : ('\n').utf8Size = 1 := by decide
      simp only [utf8Len_append, utf8Len_cons, utf8Len_nil, hsize, List.dropLast_concat, hends,
        if_true] at h hbytes hcounted
      have hline : 1 ≤ Kept.lineBytes (Kept.addAll {} (splitLinesForCounting (start ++ ['\n'])).reverse) line := by
        rw [Kept.lineBytes, hall, if_neg (by simpa using hlines)]
        omega
      omega
    case isFalse => exact absurd ⟨hlength, hbytes⟩ h
  · rw [keepLines_of_not_fits hfits]
    exact .refl _

/-- A text within the limits is kept whole before a line that leaves no room
for it. -/
theorem keepLines_same_of_within (hne : text ≠ []) (hlength : (splitLinesForCounting text).length ≤ maxLines)
    (hbytes : utf8Len text ≤ maxBytes) {line : List Char}
    (hline : maxBytes ≤ utf8Len (joinLines (splitLinesForCounting text)) + utf8Len line)
    (before : List (List Char)) :
    (keepLines maxLines maxBytes {} (before ++ line :: splitLinesForCounting text).reverse).Same
      { lines := splitLinesForCounting text } := by
  have hlines := splitLinesForCounting_ne_nil hne
  have hjoined : utf8Len (joinLines (splitLinesForCounting text)) ≤ maxBytes := by
    rw [joinLines_splitLinesForCounting]
    split
    case isTrue hends =>
      obtain ⟨start, rfl⟩ := eq_concat_of_endsWithNewline hends
      rw [utf8Len_append] at hbytes
      rw [List.dropLast_concat]
      omega
    case isFalse => exact hbytes
  have hfits := (fits_reverse_iff hlines).mpr ⟨hlength, hjoined⟩
  have hall : (Kept.addAll {} (splitLinesForCounting text).reverse).lines = splitLinesForCounting text := by
    rw [Kept.addAll_lines]
    simp
  have hcounted : (Kept.addAll {} (splitLinesForCounting text).reverse).Counted := Kept.counted_start.addAll _
  rw [Kept.Counted, hall] at hcounted
  have hfull : (keepLines maxLines maxBytes {} (before ++ line :: splitLinesForCounting text).reverse).Same
      (Kept.addAll {} (splitLinesForCounting text).reverse) := by
    rw [List.reverse_append, List.reverse_cons, List.append_assoc, keepLines_of_fits hfits]
    refine keepLines_same_of_full (by rwa [hall]) (.inr fun line' hline' => ?_)
    obtain rfl : line = line' := by simpa using hline'
    rw [hcounted, Kept.lineBytes, hall, if_neg (by simpa using hlines)]
    omega
  refine ⟨hfull.lines.trans hall, hfull.lastLinePartial.trans ?_⟩
  exact Kept.addAll_lastLinePartial {} _

/-- A last line that is over the limit is cut. -/
theorem keepLines_of_long_line {line : List Char} (hlength : 0 < maxLines) (hline : maxBytes < utf8Len line)
    (before : List (List Char)) :
    (keepLines maxLines maxBytes {} (before ++ [line]).reverse).Same
      { lines := [bytesFromEnd line maxBytes], lastLinePartial := true } := by
  have hbytes : maxBytes < Kept.bytes {} + Kept.lineBytes {} line := by
    show maxBytes < 0 + (utf8Len line + 0)
    omega
  rw [List.reverse_append, List.reverse_singleton, List.singleton_append, keepLines, if_neg (by simp; omega),
    if_pos hbytes]
  exact ⟨rfl, rfl⟩

/-- The end of a text does not depend on what is before it. -/
theorem bytesFromEnd_append (h : maxBytes < utf8Len text) (before : List Char) :
    bytesFromEnd (before ++ text) maxBytes = bytesFromEnd text maxBytes := by
  have hcut : utf8Len (before ++ text) - maxBytes = utf8Len before + (utf8Len text - maxBytes) := by
    rw [utf8Len_append]
    omega
  have hlong : ¬ utf8Len (before ++ text) ≤ maxBytes := by
    rw [utf8Len_append]
    omega
  rw [bytesFromEnd, bytesFromEnd, if_neg hlong, if_neg (by omega), hcut, cutBytes_snd_append]

/-! ## Results -/

/-- Two results show the same text in the same way. -/
structure TruncationResult.SameTail (r r' : TruncationResult) : Prop where
  content : r.content = r'.content
  lastLinePartial : r.lastLinePartial = r'.lastLinePartial

theorem truncateTail_of_within (h : (splitLinesForCounting text).length ≤ maxLines ∧ utf8Len text ≤ maxBytes) :
    (truncateTail maxLines maxBytes text).content = text ∧
      (truncateTail maxLines maxBytes text).lastLinePartial = false := by
  rw [truncateTail]
  simp [h]

theorem truncateTail_of_not_within
    (h : ¬ ((splitLinesForCounting text).length ≤ maxLines ∧ utf8Len text ≤ maxBytes)) :
    (truncateTail maxLines maxBytes text).content =
        joinLines (keepLines maxLines maxBytes {} (splitLinesForCounting text).reverse).lines ∧
      (truncateTail maxLines maxBytes text).lastLinePartial =
        (keepLines maxLines maxBytes {} (splitLinesForCounting text).reverse).lastLinePartial := by
  rw [truncateTail]
  simp only [if_neg h, and_self]

@[simp] theorem truncateTail_truncated (text : List Char) :
    (truncateTail maxLines maxBytes text).truncated = true ↔
      maxLines < (splitLinesForCounting text).length ∨ maxBytes < utf8Len text := by
  rw [truncateTail]
  by_cases h : (splitLinesForCounting text).length ≤ maxLines ∧ utf8Len text ≤ maxBytes
  · simp only [h, and_self, if_true]
    simp
    omega
  · simp only [h, if_false, true_iff]
    omega

@[simp] theorem truncateTail_totalLines (text : List Char) :
    (truncateTail maxLines maxBytes text).totalLines = (splitLinesForCounting text).length := by
  rw [truncateTail]
  by_cases h : (splitLinesForCounting text).length ≤ maxLines ∧ utf8Len text ≤ maxBytes
  · simp [h]
  · simp only [h, if_false]

@[simp] theorem truncateTail_totalBytes (text : List Char) :
    (truncateTail maxLines maxBytes text).totalBytes = utf8Len text := by
  rw [truncateTail]
  by_cases h : (splitLinesForCounting text).length ≤ maxLines ∧ utf8Len text ≤ maxBytes
  · simp [h]
  · simp only [h, if_false]

/-- More text is not within the limits either. -/
theorem not_within_append {before : List Char} (hbefore : before = [] ∨ endsWithNewline before)
    (h : ¬ ((splitLinesForCounting text).length ≤ maxLines ∧ utf8Len text ≤ maxBytes)) :
    ¬ ((splitLinesForCounting (before ++ text)).length ≤ maxLines ∧ utf8Len (before ++ text) ≤ maxBytes) := by
  obtain ⟨lines, hlines⟩ := splitLinesForCounting_of_boundary hbefore text
  rw [hlines, List.length_append, utf8Len_append]
  omega

/-- A text that is not within the limits is truncated in the same way behind
whatever ends where it starts. -/
theorem truncateTail_of_exceeds {before : List Char} (hbefore : before = [] ∨ endsWithNewline before)
    (h : ¬ ((splitLinesForCounting text).length ≤ maxLines ∧ utf8Len text ≤ maxBytes)) :
    (truncateTail maxLines maxBytes text).SameTail (truncateTail maxLines maxBytes (before ++ text)) := by
  have hne : text ≠ [] := by
    rintro rfl
    exact h ⟨Nat.zero_le _, Nat.zero_le _⟩
  obtain ⟨lines, hlines⟩ := splitLinesForCounting_of_boundary hbefore text
  obtain ⟨hcontent, hlast⟩ := truncateTail_of_not_within h
  obtain ⟨hcontent', hlast'⟩ := truncateTail_of_not_within (not_within_append hbefore h)
  have hsame := keepLines_same_of_exceeds hne h lines
  rw [← hlines] at hsame
  exact ⟨by rw [hcontent, hcontent', hsame.lines], by rw [hlast, hlast', hsame.lastLinePartial]⟩

/-- A text whose last line is over the limit is truncated to the end of that
line. -/
theorem truncateTail_of_long_line {before line : List Char} (hbefore : before = [] ∨ endsWithNewline before)
    (hnewline : '\n' ∉ line) (hlength : 0 < maxLines) (hline : maxBytes < utf8Len line) {after : List Char}
    (hafter : after = [] ∨ after = ['\n']) :
    (truncateTail maxLines maxBytes (before ++ line ++ after)).content = bytesFromEnd line maxBytes ∧
      (truncateTail maxLines maxBytes (before ++ line ++ after)).lastLinePartial = true := by
  have hne : line ≠ [] := by
    rintro rfl
    simp at hline
  have hlines : ∃ lines, splitLinesForCounting (before ++ line ++ after) = lines ++ [line] := by
    obtain ⟨lines, hlines⟩ := splitLinesForCounting_of_boundary hbefore (line ++ after)
    refine ⟨lines, ?_⟩
    rw [List.append_assoc, hlines]
    rcases hafter with rfl | rfl
    · rw [List.append_nil, splitLinesForCounting_of_not_mem hnewline hne]
    · rw [splitLinesForCounting_append, List.splitOn_eq_singleton hnewline]
      simp [splitLinesForCounting]
  obtain ⟨lines, hlines⟩ := hlines
  have hover : ¬ ((splitLinesForCounting (before ++ line ++ after)).length ≤ maxLines ∧
      utf8Len (before ++ line ++ after) ≤ maxBytes) := by
    simp only [utf8Len_append]
    omega
  obtain ⟨hcontent, hlast⟩ := truncateTail_of_not_within hover
  have hsame := keepLines_of_long_line hlength hline lines
  rw [← hlines] at hsame
  refine ⟨?_, by rw [hlast, hsame.lastLinePartial]⟩
  rw [hcontent, hsame.lines]
  simp [joinLines]

/-- A text within the limits, behind a line that leaves no room for it, is
what is shown, but for its last newline. -/
theorem truncateTail_behind_long_line {before line : List Char} (hbefore : before = [] ∨ endsWithNewline before)
    (hnewline : '\n' ∉ line) (hne : text ≠ [])
    (h : (splitLinesForCounting text).length ≤ maxLines ∧ utf8Len text ≤ maxBytes)
    (hline : maxBytes ≤ utf8Len (joinLines (splitLinesForCounting text)) + utf8Len line) :
    (truncateTail maxLines maxBytes (before ++ line ++ '\n' :: text)).content =
        (if endsWithNewline text then text.dropLast else text) ∧
      (truncateTail maxLines maxBytes (before ++ line ++ '\n' :: text)).lastLinePartial = false := by
  obtain ⟨lines, hlines⟩ := splitLinesForCounting_of_boundary hbefore (line ++ '\n' :: text)
  rw [splitLinesForCounting_append, List.splitOn_eq_singleton hnewline, List.singleton_append, ← List.append_assoc]
    at hlines
  have hsame := keepLines_same_of_within hne h.1 h.2 hline lines
  rw [← hlines] at hsame
  have hjoined : utf8Len (joinLines (splitLinesForCounting text)) ≤ utf8Len text := by
    rw [joinLines_splitLinesForCounting]
    split
    case isTrue hends =>
      obtain ⟨start, rfl⟩ := eq_concat_of_endsWithNewline hends
      rw [List.dropLast_concat, utf8Len_append]
      omega
    case isFalse => exact Nat.le_refl _
  have hsize : ('\n').utf8Size = 1 := by decide
  have hover : ¬ ((splitLinesForCounting (before ++ line ++ '\n' :: text)).length ≤ maxLines ∧
      utf8Len (before ++ line ++ '\n' :: text) ≤ maxBytes) := by
    simp only [utf8Len_append, utf8Len_cons, hsize]
    omega
  obtain ⟨hcontent, hlast⟩ := truncateTail_of_not_within hover
  refine ⟨?_, by rw [hlast, hsame.lastLinePartial]⟩
  rw [hcontent, hsame.lines, joinLines_splitLinesForCounting]

end MinionAgent
