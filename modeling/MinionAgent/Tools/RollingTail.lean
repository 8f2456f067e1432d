import MinionAgent.Tools.TailTruncation

/-!
# MinionAgent.Tools.RollingTail

The snapshot of the accumulator against the truncation of the whole text.

The tail is a window on the text: all of it, or a part at its end of about two
limits or more (`Window`).  A window that starts inside a line is shown from
the next line on.  Where what is left is within the limits, the text's last
newline is kept and a long line before it is not shown, which
`truncateTail` of the whole text does the other way (`LeavesLongLine`).
Everywhere else the two agree (`snapshot_agrees`).
-/

namespace MinionAgent

/-! ## Counters -/

theorem afterLastNewline_eq_nil {text : List Char} :
    afterLastNewline text = [] ↔ text = [] ∨ endsWithNewline text = true := by
  rw [afterLastNewline, List.reverse_eq_nil_iff]
  rcases List.eq_nil_or_concat text with rfl | ⟨start, c, rfl⟩
  · simp
  · simp only [List.concat_eq_append, List.reverse_append, List.reverse_singleton, List.singleton_append,
      endsWithNewline, List.getLast?_append, List.getLast?_singleton]
    by_cases hc : c = '\n'
    · simp [hc]
    · simp [hc]

theorem afterLastNewline_append_of_not_mem {text : List Char} (h : '\n' ∉ text) (before : List Char) :
    afterLastNewline (before ++ text) = afterLastNewline before ++ text := by
  have hall : ∀ c ∈ text.reverse, (c != '\n') = true := by
    intro c hc
    rw [bne_iff_ne]
    rintro rfl
    exact h (List.mem_reverse.mp hc)
  rw [afterLastNewline, List.reverse_append, List.takeWhile_append_of_pos hall, List.reverse_append,
    List.reverse_reverse, afterLastNewline]

theorem afterLastNewline_append_of_mem {text : List Char} (h : '\n' ∈ text) (before : List Char) :
    afterLastNewline (before ++ text) = afterLastNewline text := by
  obtain ⟨start, line, rfl, hline, hstart⟩ := exists_last_line text
  have hends : endsWithNewline start := by
    refine hstart.resolve_left ?_
    rintro rfl
    exact hline h
  obtain ⟨start, rfl⟩ := eq_concat_of_endsWithNewline hends
  have hnil : ∀ front : List Char, afterLastNewline (front ++ ['\n']) = [] := fun front =>
    afterLastNewline_eq_nil.mpr (.inr (endsWithNewline_concat front))
  rw [← List.append_assoc, afterLastNewline_append_of_not_mem hline, afterLastNewline_append_of_not_mem hline,
    ← List.append_assoc, hnil, hnil]

/-! ## The window -/

/-- The tail of a text: all of it, or an end of it that is not shorter than two
limits by more than a character, if the text is longer than four. -/
def Window (maxBytes : Nat) (before tail : List Char) (boundary : Bool) : Prop :=
  (before = [] ∧ boundary = true) ∨
    (before ≠ [] ∧ boundary = endsWithNewline before ∧ maxBytes * 2 ≤ utf8Len tail + 3 ∧
      maxBytes * 4 < utf8Len (before ++ tail))

theorem Window.append {maxBytes : Nat} {before tail : List Char} {boundary : Bool}
    (h : Window maxBytes before tail boundary) (text : List Char) : Window maxBytes before (tail ++ text) boundary := by
  rcases h with h | ⟨hbefore, hboundary, hlength, hlong⟩
  · exact .inl h
  · simp only [utf8Len_append] at hlong
    refine .inr ⟨hbefore, hboundary, ?_, ?_⟩
    · rw [utf8Len_append]
      omega
    · simp only [utf8Len_append]
      omega

/-- The counters are those of the text. -/
structure Counts (a : OutputAccumulator) (text : List Char) : Prop where
  completedLines : a.completedLines = text.count '\n'
  hasOpenLine : a.hasOpenLine = !(afterLastNewline text).isEmpty
  totalLines : a.totalLines = (splitLinesForCounting text).length
  lastLineBytes : a.lastLineBytes = utf8Len (afterLastNewline text)

/-- The accumulator has taken in the text. -/
structure Follows (lineLimit byteLimit : Nat) (a : OutputAccumulator) (text : List Char) : Prop where
  maxLines : a.maxLines = lineLimit
  maxBytes : a.maxBytes = byteLimit
  maxRollingBytes : a.maxRollingBytes = max (byteLimit * 2) 1
  totalDecodedBytes : a.totalDecodedBytes = utf8Len text
  counts : Counts a text
  tailBytes : a.tailBytes = utf8Len a.tailText
  window : ∃ before, text = before ++ a.tailText ∧ Window byteLimit before a.tailText a.tailStartsAtLineBoundary

theorem follows_init (lineLimit byteLimit : Nat) : Follows lineLimit byteLimit (.init lineLimit byteLimit) [] where
  maxLines := rfl
  maxBytes := rfl
  maxRollingBytes := rfl
  totalDecodedBytes := rfl
  counts := ⟨rfl, rfl, rfl, rfl⟩
  tailBytes := rfl
  window := ⟨[], rfl, .inl ⟨rfl, rfl⟩⟩

namespace OutputAccumulator

variable {maxLines maxBytes : Nat}

/-- `_trim_tail` moves the window. -/
theorem window_trimTail {a : OutputAccumulator} {text : List Char} (hpos : 0 < maxBytes)
    (hrolling : a.maxRollingBytes = max (maxBytes * 2) 1) (hlong : maxBytes * 4 < utf8Len a.tailText)
    (h : ∃ before, text = before ++ a.tailText) :
    ∃ before, text = before ++ a.trimTail.tailText ∧
      Window maxBytes before a.trimTail.tailText a.trimTail.tailStartsAtLineBoundary := by
  obtain ⟨before, rfl⟩ := h
  have hover : ¬ utf8Len a.tailText ≤ a.maxRollingBytes := by omega
  have hdropped : (cutBytes (utf8Len a.tailText - a.maxRollingBytes) a.tailText).1 ≠ [] := by
    refine cutBytes_fst_ne_nil (by omega) ?_
    rintro hnil
    rw [hnil] at hlong
    exact absurd hlong (Nat.not_lt_zero _)
  have hlength := utf8Len_cutBytes (utf8Len a.tailText - a.maxRollingBytes) a.tailText
  have hsplit := cutBytes_append (utf8Len a.tailText - a.maxRollingBytes) a.tailText
  rw [trimTail, if_neg hover]
  simp only [if_neg hdropped]
  generalize cutBytes (utf8Len a.tailText - a.maxRollingBytes) a.tailText = cut at hdropped hlength hsplit ⊢
  rw [← hsplit, ← List.append_assoc]
  refine ⟨before ++ cut.1, rfl, .inr ⟨by simp [hdropped], (endsWithNewline_append hdropped before).symm, by omega, ?_⟩⟩
  rw [List.append_assoc, hsplit, utf8Len_append]
  omega

theorem tailBytes_trimTail (a : OutputAccumulator) : a.trimTail.tailBytes = utf8Len a.trimTail.tailText := by
  rw [trimTail]
  split
  · rfl
  · rfl

/-- What `appendTail` leaves alone. -/
theorem appendTail_eq (a : OutputAccumulator) (text : List Char) :
    a.appendTail text =
      { a with
        tailText := (a.appendTail text).tailText
        tailBytes := (a.appendTail text).tailBytes
        tailStartsAtLineBoundary := (a.appendTail text).tailStartsAtLineBoundary } := by
  rw [appendTail, trimTail]
  split
  case isTrue =>
    split
    · rfl
    · rfl
  case isFalse => rfl

theorem window_appendTail {a : OutputAccumulator} {text : List Char} (hpos : 0 < maxBytes)
    (hrolling : a.maxRollingBytes = max (maxBytes * 2) 1) (hbytes : a.tailBytes = utf8Len a.tailText)
    (h : ∃ before, text = before ++ a.tailText ∧ Window maxBytes before a.tailText a.tailStartsAtLineBoundary)
    (chunk : List Char) :
    ∃ before, text ++ chunk = before ++ (a.appendTail chunk).tailText ∧
      Window maxBytes before (a.appendTail chunk).tailText (a.appendTail chunk).tailStartsAtLineBoundary := by
  obtain ⟨before, rfl, hwindow⟩ := h
  rw [appendTail]
  split
  case isTrue hlong =>
    refine window_trimTail hpos hrolling ?_ ⟨before, List.append_assoc ..⟩
    show maxBytes * 4 < utf8Len (a.tailText ++ chunk)
    rw [utf8Len_append]
    simp only at hlong
    omega
  case isFalse => exact ⟨before, List.append_assoc .., hwindow.append chunk⟩

theorem tailBytes_appendTail {a : OutputAccumulator} (h : a.tailBytes = utf8Len a.tailText) (chunk : List Char) :
    (a.appendTail chunk).tailBytes = utf8Len (a.appendTail chunk).tailText := by
  rw [appendTail]
  split
  case isTrue => exact tailBytes_trimTail _
  case isFalse =>
    show a.tailBytes + utf8Len chunk = utf8Len (a.tailText ++ chunk)
    rw [h, utf8Len_append]

end OutputAccumulator

/-- The lines are the newlines, and the one that is open. -/
theorem length_splitLinesForCounting' (text : List Char) :
    (splitLinesForCounting text).length = text.count '\n' + if !(afterLastNewline text).isEmpty then 1 else 0 := by
  rw [length_splitLinesForCounting]
  by_cases h : text = [] ∨ endsWithNewline text = true
  · simp [h, afterLastNewline_eq_nil.mpr h]
  · simp [h, mt afterLastNewline_eq_nil.mp h]

theorem Counts.countLines {a : OutputAccumulator} {text chunk : List Char} (h : Counts a text) (hne : chunk ≠ []) :
    Counts (a.countLines chunk) (text ++ chunk) := by
  rw [OutputAccumulator.countLines]
  by_cases hnewline : '\n' ∈ chunk
  · have hcount : chunk.count '\n' ≠ 0 := fun hzero => List.count_eq_zero.mp hzero hnewline
    have hlast := afterLastNewline_append_of_mem hnewline text
    simp only [if_neg hcount]
    refine ⟨?_, by rw [hlast], ?_, by rw [hlast]⟩
    · show a.completedLines + _ = _
      rw [h.completedLines, List.count_append]
    · show a.completedLines + _ + _ = _
      rw [h.completedLines, length_splitLinesForCounting', hlast, List.count_append]
  · have hcount : chunk.count '\n' = 0 := List.count_eq_zero.mpr hnewline
    have hlast := afterLastNewline_append_of_not_mem hnewline text
    have hopen : afterLastNewline text ++ chunk ≠ [] := by simp [hne]
    simp only [if_pos hcount]
    refine ⟨?_, ?_, ?_, ?_⟩
    · show a.completedLines = _
      rw [h.completedLines, List.count_append, hcount]
      rfl
    · simp [hlast, hne]
    · show a.completedLines + _ = _
      rw [h.completedLines, length_splitLinesForCounting', hlast, List.count_append, hcount]
      simp [hne]
    · show a.lastLineBytes + _ = _
      rw [h.lastLineBytes, hlast, utf8Len_append]

/-- `countLines` changes the counters only. -/
theorem OutputAccumulator.countLines_eq (a : OutputAccumulator) (chunk : List Char) :
    a.countLines chunk =
      { a with
        completedLines := (a.countLines chunk).completedLines
        hasOpenLine := (a.countLines chunk).hasOpenLine
        totalLines := (a.countLines chunk).totalLines
        lastLineBytes := (a.countLines chunk).lastLineBytes } := by
  rw [OutputAccumulator.countLines]
  by_cases hcount : chunk.count '\n' = 0
  · simp only [if_pos hcount]
  · simp only [if_neg hcount]

variable {lineLimit byteLimit : Nat} {a : OutputAccumulator} {text : List Char}

/-- Text behind what the accumulator has taken in. -/
theorem Follows.appendDecoded (h : Follows lineLimit byteLimit a text) (hpos : 0 < byteLimit)
    (chunk : List Char) : Follows lineLimit byteLimit (a.appendDecoded chunk) (text ++ chunk) := by
  rw [OutputAccumulator.appendDecoded]
  split
  case isTrue hnil => simpa [hnil] using h
  case isFalse hne =>
    have hwindow := OutputAccumulator.window_appendTail
      (a := { a with totalDecodedBytes := a.totalDecodedBytes + utf8Len chunk }) hpos h.maxRollingBytes h.tailBytes
      h.window chunk
    have hbytes := OutputAccumulator.tailBytes_appendTail
      (a := { a with totalDecodedBytes := a.totalDecodedBytes + utf8Len chunk }) h.tailBytes chunk
    have hkept := OutputAccumulator.appendTail_eq
      { a with totalDecodedBytes := a.totalDecodedBytes + utf8Len chunk } chunk
    generalize OutputAccumulator.appendTail { a with totalDecodedBytes := a.totalDecodedBytes + utf8Len chunk }
      chunk = b
      at hwindow hbytes hkept ⊢
    have hcounts : Counts b text := by
      rw [hkept]
      exact ⟨h.counts.completedLines, h.counts.hasOpenLine, h.counts.totalLines, h.counts.lastLineBytes⟩
    have hcounted := OutputAccumulator.countLines_eq b chunk
    refine ⟨?_, ?_, ?_, ?_, hcounts.countLines hne, ?_, ?_⟩
    · rw [hcounted, hkept]
      exact h.maxLines
    · rw [hcounted, hkept]
      exact h.maxBytes
    · rw [hcounted, hkept]
      exact h.maxRollingBytes
    · rw [hcounted, hkept, utf8Len_append, ← h.totalDecodedBytes]
    · rw [hcounted]
      exact hbytes
    · rw [hcounted]
      exact hwindow

/-! ## The snapshot -/

/-- The window starts inside a line, what follows that line is within the
limits, and the text ends with a newline. -/
structure LeavesLongLine (a : OutputAccumulator) : Prop where
  inside : a.tailStartsAtLineBoundary = false
  ends : endsWithNewline a.tailText = true
  within : (splitLinesForCounting a.snapshotText).length ≤ a.maxLines ∧ utf8Len a.snapshotText ≤ a.maxBytes

namespace OutputAccumulator

theorem snapshotText_of_boundary (h : a.tailStartsAtLineBoundary = true) : a.snapshotText = a.tailText := by
  rw [snapshotText, if_pos h]

theorem snapshotText_of_not_mem (h : '\n' ∉ a.tailText) : a.snapshotText = a.tailText := by
  rw [snapshotText, if_neg h]
  split
  · rfl
  · rfl

theorem snapshotText_of_mem (hinside : a.tailStartsAtLineBoundary = false) {line text : List Char}
    (htail : a.tailText = line ++ '\n' :: text) (hline : '\n' ∉ line) : a.snapshotText = text := by
  have hall : ∀ c ∈ line, (c != '\n') = true := by
    intro c hc
    rw [bne_iff_ne]
    rintro rfl
    exact hline hc
  rw [snapshotText, if_neg (by simp [hinside]), htail, if_pos (by simp), List.dropWhile_append_of_pos hall]
  simp

end OutputAccumulator

/-- A line and its newline are left out, and what is behind them is within the
limits. -/
theorem sameTail_behind_long_line {start line text : List Char} (hstart : start = [] ∨ endsWithNewline start)
    (hline : '\n' ∉ line) (hlines : 1 ≤ lineLimit) (hlong : byteLimit * 2 ≤ utf8Len line + utf8Len text + 3)
    (hbytes : 4 ≤ byteLimit)
    (hwithin : (splitLinesForCounting text).length ≤ lineLimit ∧ utf8Len text ≤ byteLimit) :
    (truncateTail lineLimit byteLimit text).SameTail
    (truncateTail lineLimit byteLimit (start ++ line ++ '\n' :: text)) ↔
      text ≠ [] ∧ endsWithNewline text = false := by
  obtain ⟨hcontent, hlast⟩ := truncateTail_of_within hwithin
  by_cases hne : text = []
  · subst hne
    obtain ⟨-, hlast'⟩ := truncateTail_of_long_line hstart hline hlines
      (by rw [utf8Len_nil] at hlong; omega : byteLimit < utf8Len line) (.inr rfl)
    refine iff_of_false (fun hsame => ?_) (by simp)
    rw [hsame.lastLinePartial, hlast'] at hlast
    contradiction
  · have hjoined : utf8Len text ≤ utf8Len (joinLines (splitLinesForCounting text)) + 1 := by
      rw [joinLines_splitLinesForCounting]
      split
      case isTrue hends =>
        obtain ⟨front, rfl⟩ := eq_concat_of_endsWithNewline hends
        have hsize : ('\n').utf8Size = 1 := by decide
        simp [hsize]
      case isFalse => omega
    obtain ⟨hcontent', hlast'⟩ := truncateTail_behind_long_line hstart hline hne hwithin (by omega)
    cases hends : endsWithNewline text with
    | true =>
      refine iff_of_false (fun hsame => ?_) (by simp)
      have heq := hsame.content
      rw [hcontent, hcontent', hends, if_pos rfl] at heq
      have hlength := congrArg List.length heq
      rw [List.length_dropLast] at hlength
      have := List.length_pos_of_ne_nil hne
      omega
    | false =>
      refine iff_of_true ⟨?_, by rw [hlast, hlast']⟩ ⟨hne, rfl⟩
      rw [hcontent, hcontent', hends]
      rfl

/-- What is shown is what `truncateTail` shows of the whole text, unless a
long line is left out. -/
theorem Follows.sameTail_iff (h : Follows lineLimit byteLimit a text) (hlines : 1 ≤ lineLimit)
    (hbytes : 4 ≤ byteLimit) :
    (truncateTail lineLimit byteLimit a.snapshotText).SameTail (truncateTail lineLimit byteLimit text) ↔
      ¬ LeavesLongLine a := by
  obtain ⟨before, rfl, hwindow⟩ := h.window
  rcases hwindow with ⟨rfl, hboundary⟩ | ⟨hbefore, hboundary, hlength, -⟩
  · rw [OutputAccumulator.snapshotText_of_boundary hboundary]
    exact iff_of_true ⟨rfl, rfl⟩ fun hleaves => by simp [hleaves.inside] at hboundary
  · have hover : ¬ ((splitLinesForCounting a.tailText).length ≤ lineLimit ∧ utf8Len a.tailText ≤ byteLimit) := by omega
    by_cases hends : endsWithNewline before = true
    · rw [hends] at hboundary
      rw [OutputAccumulator.snapshotText_of_boundary hboundary]
      exact iff_of_true (truncateTail_of_exceeds (.inr hends) hover) fun hleaves =>
        by simp [hleaves.inside] at hboundary
    · rw [Bool.not_eq_true] at hends
      rw [hends] at hboundary
      -- the window starts inside the line whose first part is `front`
      obtain ⟨start, front, rfl, hfront, hstart⟩ := exists_last_line before
      have hpos : 0 < utf8Len front := by
        refine utf8Len_pos ?_
        rintro rfl
        rw [List.append_nil] at hends hbefore
        simp [hends, hbefore] at hstart
      by_cases hnewline : '\n' ∈ a.tailText
      · obtain ⟨line, rest, htail, hline⟩ := List.eq_append_cons_of_mem hnewline
        rw [OutputAccumulator.snapshotText_of_mem hboundary htail hline]
        have hsize : ('\n').utf8Size = 1 := by decide
        have hlong : '\n' ∉ front ++ line := by simp [hfront, hline]
        have htext : start ++ front ++ a.tailText = start ++ (front ++ line) ++ '\n' :: rest := by
          simp [htail]
        have hsizes : utf8Len a.tailText = utf8Len line + 1 + utf8Len rest := by
          simp only [htail, utf8Len_append, utf8Len_cons, hsize]
          omega
        by_cases hwithin : (splitLinesForCounting rest).length ≤ lineLimit ∧ utf8Len rest ≤ byteLimit
        · rw [htext, sameTail_behind_long_line hstart hlong hlines (by rw [utf8Len_append]; omega) hbytes hwithin]
          have hends' : endsWithNewline a.tailText = (rest == [] || endsWithNewline rest) := by
            rw [htail]
            cases rest with
            | nil => simp [endsWithNewline]
            | cons c rest => simp [endsWithNewline]
          constructor
          · rintro ⟨hne, hopen⟩ hleaves
            have hclosed := hleaves.ends
            rw [hends', hopen] at hclosed
            simp [hne] at hclosed
          · intro hleaves
            by_contra hno
            refine hleaves ⟨hboundary, ?_, ?_⟩
            · rw [hends']
              by_cases hne : rest = []
              · simp [hne]
              · simpa [hne] using hno
            · rwa [OutputAccumulator.snapshotText_of_mem hboundary htail hline, h.maxLines, h.maxBytes]
        · have hexceeds : (truncateTail lineLimit byteLimit rest).SameTail
              (truncateTail lineLimit byteLimit (start ++ (front ++ line) ++ ['\n'] ++ rest)) :=
            truncateTail_of_exceeds (.inr (endsWithNewline_concat _)) hwithin
          rw [List.append_assoc, List.singleton_append, ← htext] at hexceeds
          refine iff_of_true hexceeds fun hleaves => hwithin ?_
          have hkept := hleaves.within
          rwa [OutputAccumulator.snapshotText_of_mem hboundary htail hline, h.maxLines, h.maxBytes] at hkept
      · rw [OutputAccumulator.snapshotText_of_not_mem hnewline]
        have hlong : '\n' ∉ front ++ a.tailText := by simp [hfront, hnewline]
        obtain ⟨hcontent, hlast⟩ := truncateTail_of_long_line (.inl rfl) hnewline hlines
          (by omega : byteLimit < utf8Len a.tailText) (.inl rfl)
        obtain ⟨hcontent', hlast'⟩ := truncateTail_of_long_line hstart hlong hlines
          (by rw [utf8Len_append]; omega : byteLimit < utf8Len (front ++ a.tailText)) (.inl rfl)
        simp only [List.nil_append, List.append_nil] at hcontent hlast hcontent' hlast'
        rw [← List.append_assoc] at hcontent' hlast'
        refine iff_of_true ⟨?_, by rw [hlast, hlast']⟩ fun hleaves => ?_
        · rw [hcontent, hcontent', bytesFromEnd_append (by omega)]
        · obtain ⟨_, htail⟩ := eq_concat_of_endsWithNewline hleaves.ends
          simp [htail] at hnewline

/-- Whatever the window, a text shows no long line left out that does not end
with a newline, that is not longer than four limits, or whose lines are all
shorter than the limit by four bytes. -/
def NeverLeaves (byteLimit : Nat) (text : List Char) : Prop :=
  endsWithNewline text = false ∨ utf8Len text ≤ byteLimit * 4 ∨
    ∀ line ∈ splitLinesForCounting text, utf8Len line + 4 ≤ byteLimit

theorem Follows.not_leavesLongLine (h : Follows lineLimit byteLimit a text)
    (hnever : NeverLeaves byteLimit text) : ¬ LeavesLongLine a := by
  intro hleaves
  obtain ⟨before, rfl, hwindow⟩ := h.window
  have htailNe : a.tailText ≠ [] := by
    intro hnil
    have hends := hleaves.ends
    rw [hnil] at hends
    contradiction
  rcases hwindow with ⟨rfl, hboundary⟩ | ⟨hbefore, hboundary, hlength, hlong⟩
  · simp [hleaves.inside] at hboundary
  · rcases hnever with hopen | hshort | hall
    · rw [endsWithNewline_append htailNe, hleaves.ends] at hopen
      contradiction
    · omega
    · -- the line the window starts in is short, so too much is left
      have hnewline : '\n' ∈ a.tailText := by
        obtain ⟨_, htail⟩ := eq_concat_of_endsWithNewline hleaves.ends
        simp [htail]
      obtain ⟨line, rest, htail, hline⟩ := List.eq_append_cons_of_mem hnewline
      have hwithin := hleaves.within.2
      rw [OutputAccumulator.snapshotText_of_mem hleaves.inside htail hline, h.maxBytes] at hwithin
      obtain ⟨start, front, rfl, hfront, hstart⟩ := exists_last_line before
      have hmem : front ++ line ∈ splitLinesForCounting (start ++ front ++ a.tailText) := by
        obtain ⟨lines, hlines⟩ := splitLinesForCounting_of_boundary hstart (front ++ a.tailText)
        have hsplit : splitLinesForCounting (front ++ a.tailText) = (front ++ line) :: splitLinesForCounting rest := by
          rw [htail, ← List.append_assoc, splitLinesForCounting_append,
            List.splitOn_eq_singleton (by simp [hfront, hline])]
          rfl
        rw [List.append_assoc, hlines, hsplit]
        simp
      have hsmall := hall _ hmem
      have hpos : 0 < utf8Len front := by
        refine utf8Len_pos ?_
        rintro rfl
        rw [hleaves.inside, List.append_nil] at hboundary
        rw [List.append_nil] at hbefore
        simp [← hboundary, hbefore] at hstart
      have hsize : ('\n').utf8Size = 1 := by decide
      rw [htail] at hlength
      simp only [utf8Len_append, utf8Len_cons, hsize] at hlength hsmall
      omega

/-! ## Streams -/

/-- The text of a stream: decoded, without one leading BOM. -/
def stripBom (text : List Char) : List Char := if text.head? = some bom then text.tail else text

theorem stripBom_append (h : text ≠ []) (chunk : List Char) : stripBom (text ++ chunk) = stripBom text ++ chunk := by
  obtain ⟨c, rest, rfl⟩ := List.exists_cons_of_ne_nil h
  rw [stripBom, stripBom, List.cons_append]
  by_cases hc : (c :: rest).head? = some bom
  · rw [if_pos hc, if_pos (by simpa using hc)]
    rfl
  · rw [if_neg hc, if_neg (by simpa using hc)]
    rfl

/-- The accumulator has been given the bytes and has decoded what they
complete. -/
structure Decodes (lineLimit byteLimit : Nat) (a : OutputAccumulator) (bytes : List UInt8) : Prop where
  follows : Follows lineLimit byteLimit a (stripBom (Utf8Decoder.feed {} bytes).1)
  decoder : a.decoder = (Utf8Decoder.feed {} bytes).2
  atStreamStart : a.atStreamStart = (Utf8Decoder.feed {} bytes).1.isEmpty
  finished : a.finished = false

theorem decodes_init (lineLimit byteLimit : Nat) : Decodes lineLimit byteLimit (.init lineLimit byteLimit) [] where
  follows := follows_init lineLimit byteLimit
  decoder := rfl
  atStreamStart := rfl
  finished := rfl

namespace OutputAccumulator

/-- `appendDecoded` leaves the decoder and the flags alone. -/
theorem appendDecoded_kept (a : OutputAccumulator) (chunk : List Char) :
    (a.appendDecoded chunk).decoder = a.decoder ∧ (a.appendDecoded chunk).atStreamStart = a.atStreamStart ∧
      (a.appendDecoded chunk).finished = a.finished := by
  rw [appendDecoded]
  split
  case isTrue => exact ⟨rfl, rfl, rfl⟩
  case isFalse =>
    rw [countLines_eq, appendTail_eq]
    exact ⟨rfl, rfl, rfl⟩

/-- What `_decode` returns is the next part of the text, and it changes the
decoder and its flag only. -/
theorem decode_spec {decoded : List Char} (hstart : a.atStreamStart = decoded.isEmpty) (data : List UInt8)
    (final : Bool)
    (htext : (if final then (a.decoder.feed data).1 ++ (a.decoder.feed data).2.flush
      else (a.decoder.feed data).1) = text) :
    stripBom (decoded ++ text) = stripBom decoded ++ (a.decode data final).1 ∧
      (a.decode data final).2 =
        { a with
          decoder := if final then {} else (a.decoder.feed data).2
          atStreamStart := (decoded ++ text).isEmpty } := by
  simp only [decode, htext]
  by_cases hdecoded : decoded = []
  · subst hdecoded
    have hflag : a.atStreamStart = true := hstart
    by_cases hnil : text = []
    · subst hnil
      simp [hflag, stripBom]
    · have hempty : text.isEmpty = false := by simpa using hnil
      simp only [hflag, hnil, ne_eq, not_false_eq_true, and_self, if_true, List.nil_append, hempty]
      exact ⟨rfl, trivial⟩
  · have hflag : a.atStreamStart = false := by rw [hstart]; simpa using hdecoded
    have hempty : (decoded ++ text).isEmpty = false := by simp [hdecoded]
    simp [hflag, stripBom_append hdecoded, hdecoded]

end OutputAccumulator

/-- What is not about the text does not matter for it. -/
theorem Follows.congr (h : Follows lineLimit byteLimit a text) (decoder : Utf8Decoder)
    (atStreamStart finished : Bool) (totalRawBytes : Nat) :
    Follows lineLimit byteLimit { a with decoder, atStreamStart, finished, totalRawBytes } text :=
  ⟨h.maxLines, h.maxBytes, h.maxRollingBytes, h.totalDecodedBytes,
    ⟨h.counts.completedLines, h.counts.hasOpenLine, h.counts.totalLines, h.counts.lastLineBytes⟩, h.tailBytes, h.window⟩

/-- `_append_decoded` of what `_decode` returns. -/
theorem Follows.decode {decoded : List Char} (h : Follows lineLimit byteLimit a (stripBom decoded))
    (hpos : 0 < byteLimit) (hstart : a.atStreamStart = decoded.isEmpty) (data : List UInt8) (final : Bool)
    (htext : (if final then (a.decoder.feed data).1 ++ (a.decoder.feed data).2.flush
      else (a.decoder.feed data).1) = text) :
    Follows lineLimit byteLimit ((a.decode data final).2.appendDecoded (a.decode data final).1)
      (stripBom (decoded ++ text)) := by
  obtain ⟨hstripped, hkept⟩ := OutputAccumulator.decode_spec hstart data final htext
  rw [hstripped]
  refine Follows.appendDecoded ?_ hpos _
  rw [hkept]
  exact h.congr _ _ _ _

/-- A chunk behind the bytes the accumulator has been given. -/
theorem Decodes.append {bytes : List UInt8} (h : Decodes lineLimit byteLimit a bytes) (hpos : 0 < byteLimit)
    (data : List UInt8) : ∃ b, a.append data = .ok b ∧ Decodes lineLimit byteLimit b (bytes ++ data) := by
  rw [OutputAccumulator.append, if_neg (by simp [h.finished])]
  refine ⟨_, rfl, ?_⟩
  have hfed := Utf8Decoder.feed_append {} bytes data
  have hfollows := (h.follows.congr a.decoder a.atStreamStart a.finished (a.totalRawBytes + data.length)).decode hpos
    h.atStreamStart data false rfl
  obtain ⟨-, hkept⟩ := OutputAccumulator.decode_spec (a := { a with totalRawBytes := a.totalRawBytes + data.length })
    h.atStreamStart data false rfl
  obtain ⟨hdecoder, hflag, hfinished⟩ := OutputAccumulator.appendDecoded_kept
    ({ a with totalRawBytes := a.totalRawBytes + data.length }.decode data false).2
    ({ a with totalRawBytes := a.totalRawBytes + data.length }.decode data false).1
  refine ⟨?_, hdecoder.trans ?_, hflag.trans ?_, hfinished.trans ?_⟩
  · rw [hfed, ← h.decoder]
    exact hfollows
  · rw [hfed, ← h.decoder, hkept]
    rfl
  · rw [hfed, ← h.decoder, hkept]
    rfl
  · rw [hkept]
    exact h.finished

theorem Decodes.foldlM {bytes : List UInt8} (h : Decodes lineLimit byteLimit a bytes) (hpos : 0 < byteLimit)
    (chunks : List (List UInt8)) :
    ∃ b, chunks.foldlM OutputAccumulator.append a = .ok b ∧
      Decodes lineLimit byteLimit b (bytes ++ chunks.flatten) := by
  induction chunks generalizing a bytes with
  | nil => exact ⟨a, rfl, by simpa using h⟩
  | cons data chunks ih =>
    obtain ⟨b, hb, hdecodes⟩ := h.append hpos data
    obtain ⟨c, hc, hrest⟩ := ih hdecodes
    refine ⟨c, ?_, by simpa using hrest⟩
    rw [List.foldlM_cons, hb]
    exact hc

/-- The text of a whole stream. -/
def streamText (bytes : List UInt8) : List Char := stripBom (decodeUtf8 bytes)

/-- The finished accumulator has taken in the text of the stream, however it
was split. -/
theorem accumulate_follows (hpos : 0 < byteLimit) (chunks : List (List UInt8)) :
    ∃ a, OutputAccumulator.accumulate lineLimit byteLimit chunks = .ok a ∧
      Follows lineLimit byteLimit a (streamText chunks.flatten) := by
  obtain ⟨b, hb, hdecodes⟩ := (decodes_init lineLimit byteLimit).foldlM hpos chunks
  rw [List.nil_append] at hdecodes
  refine ⟨b.finish, by rw [OutputAccumulator.accumulate, hb]; rfl, ?_⟩
  rw [OutputAccumulator.finish, if_neg (by simp [hdecodes.finished])]
  have hfollows := (hdecodes.follows.congr b.decoder b.atStreamStart true b.totalRawBytes).decode hpos
    hdecodes.atStreamStart [] true rfl
  rw [streamText, decodeUtf8, ← hdecodes.decoder]
  exact hfollows

/-- The totals and the flag are recomputed from the whole stream. -/
theorem Follows.totals (h : Follows lineLimit byteLimit a text) :
    a.snapshot.truncated = (truncateTail lineLimit byteLimit text).truncated ∧
      a.snapshot.totalLines = (truncateTail lineLimit byteLimit text).totalLines ∧
      a.snapshot.totalBytes = (truncateTail lineLimit byteLimit text).totalBytes := by
  refine ⟨?_, ?_, ?_⟩
  · rw [Bool.eq_iff_iff, truncateTail_truncated, OutputAccumulator.snapshot]
    simp only [decide_eq_true_eq, h.maxLines, h.maxBytes, h.counts.totalLines, h.totalDecodedBytes]
  · rw [truncateTail_totalLines, OutputAccumulator.snapshot]
    exact h.counts.totalLines
  · rw [truncateTail_totalBytes, OutputAccumulator.snapshot]
    exact h.totalDecodedBytes

/-- The tail of the snapshot is that of the window. -/
theorem Follows.snapshot (h : Follows lineLimit byteLimit a text) :
    a.snapshot.SameTail (truncateTail lineLimit byteLimit a.snapshotText) := by
  rw [← h.maxLines, ← h.maxBytes]
  exact ⟨rfl, rfl⟩

/-- The rolling accumulator against the whole stream: the totals and the flag
always agree, the text shown and whether it is partial do unless a long line
is left out. -/
theorem rolling_tail_agrees (maxLines maxBytes : Nat) (hlines : 1 ≤ maxLines) (hbytes : 4 ≤ maxBytes)
    (chunks : List (List UInt8)) :
    ∃ a, OutputAccumulator.accumulate maxLines maxBytes chunks = .ok a ∧
      a.snapshot.truncated = (truncateTail maxLines maxBytes (streamText chunks.flatten)).truncated ∧
      a.snapshot.totalLines = (truncateTail maxLines maxBytes (streamText chunks.flatten)).totalLines ∧
      a.snapshot.totalBytes = (truncateTail maxLines maxBytes (streamText chunks.flatten)).totalBytes ∧
      (a.snapshot.SameTail (truncateTail maxLines maxBytes (streamText chunks.flatten)) ↔ ¬ LeavesLongLine a) ∧
      (LeavesLongLine a → a.snapshot.content = a.snapshotText ∧ a.snapshot.lastLinePartial = false) ∧
      (NeverLeaves maxBytes (streamText chunks.flatten) → ¬ LeavesLongLine a) := by
  obtain ⟨a, ha, hfollows⟩ : ∃ a, OutputAccumulator.accumulate maxLines maxBytes chunks = .ok a ∧
      Follows maxLines maxBytes a (streamText chunks.flatten) := accumulate_follows (by omega) chunks
  obtain ⟨htruncated, htotalLines, htotalBytes⟩ := hfollows.totals
  have hsnapshot := hfollows.snapshot
  refine ⟨a, ha, htruncated, htotalLines, htotalBytes, ?_, fun hleaves => ?_, hfollows.not_leavesLongLine⟩
  · rw [← hfollows.sameTail_iff hlines hbytes]
    constructor
    · exact fun h => ⟨hsnapshot.content.symm.trans h.content, hsnapshot.lastLinePartial.symm.trans h.lastLinePartial⟩
    · exact fun h => ⟨hsnapshot.content.trans h.content, hsnapshot.lastLinePartial.trans h.lastLinePartial⟩
  · have hwithin := hleaves.within
    rw [hfollows.maxLines, hfollows.maxBytes] at hwithin
    obtain ⟨hcontent, hlast⟩ := truncateTail_of_within hwithin
    exact ⟨hsnapshot.content.trans hcontent, hsnapshot.lastLinePartial.trans hlast⟩

theorem rolling_tail_agrees_two_lines :
    ∃ a, OutputAccumulator.accumulate 10 4 [[97], [98, 10, 99]] = .ok a ∧
      a.snapshot.SameTail (truncateTail 10 4 (streamText [97, 98, 10, 99])) := by
  obtain ⟨a, ha, -, -, -, hsame, -, hnever⟩ := rolling_tail_agrees 10 4 (by decide) (by decide) [[97], [98, 10, 99]]
  exact ⟨a, ha, hsame.mpr (hnever (.inl (by decide)))⟩

/-- A line of four limits and more, and its newline. -/
def longLine : List UInt8 := List.replicate 17 97 ++ [10]

/-- Short lines up to the cut of one long chunk, then a long line. -/
def shortLines : List UInt8 := [120, 10, 120, 10, 120, 10, 120, 10, 120, 10, 97, 97, 97, 97, 97, 97, 97]

/-- The long line is not shown, and whether one is shown depends on the
chunks. -/
theorem rolling_tail_drops_long_line :
    (OutputAccumulator.accumulate 1 4 [longLine]).map (fun a => a.snapshot.content) = .ok [] ∧
    (truncateTail 1 4 (streamText longLine)).content = ['a', 'a', 'a', 'a'] ∧
    (OutputAccumulator.accumulate 10 4 [shortLines ++ [97, 97, 10, 98, 10]]).map (fun a => a.snapshot.content) =
      .ok ['b', '\n'] ∧
    (OutputAccumulator.accumulate 10 4 [shortLines, [97, 97, 10, 98, 10]]).map (fun a => a.snapshot.content) =
      .ok ['b'] := by
  decide

end MinionAgent
