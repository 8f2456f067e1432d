import MinionAgent.Tools.TailTruncation

/-!
# MinionAgent.Tools.HeadTruncation

Head truncation (`tools/builtin/truncate.py`, `tools/builtin/truncate.rs`): the
first lines of a text that fit both ceilings.

* `truncateHead_agrees` — the two bindings cut alike;
* `truncateHead_joinLines` — of lines joined by newlines, either all are shown
  or some of the first ones, never all.
-/

namespace MinionAgent

/-! ## The cut -/

/-- `Truncation`. -/
structure Truncation where
  content : List Char
  truncated : Bool
  truncatedBy : Option TruncatedBy
  totalLines : Nat
  totalBytes : Nat
  outputLines : Nat
  firstLineExceedsLimit : Bool
deriving DecidableEq

/-- What the loop of `truncate_head` has kept. -/
structure HeadKept where
  lines : List (List Char) := []
  bytes : Nat := 0
  truncatedBy : TruncatedBy := .lines
deriving DecidableEq

/-- The line and the newline that joins it to the kept ones. -/
def HeadKept.lineBytes (kept : HeadKept) (line : List Char) : Nat :=
  utf8Len line + if 0 < kept.lines.length then 1 else 0

def HeadKept.add (kept : HeadKept) (line : List Char) : HeadKept :=
  { kept with lines := kept.lines ++ [line], bytes := kept.bytes + kept.lineBytes line }

/-- The loop over the lines; the index of a line is the number of the kept ones. -/
def keepHead (maxLines maxBytes : Nat) : HeadKept → List (List Char) → HeadKept
  | kept, [] => kept
  | kept, line :: rest =>
    if maxLines ≤ kept.lines.length then kept
    else if maxBytes < kept.bytes + kept.lineBytes line then { kept with truncatedBy := .bytes }
    else keepHead maxLines maxBytes (kept.add line) rest

/-- The truncation, `truncatedBy` of what was kept being a parameter. -/
def truncateHeadBy (truncatedBy : HeadKept → TruncatedBy) (maxLines maxBytes : Nat)
    (content : List Char) : Truncation :=
  let totalBytes := utf8Len content
  let lines := splitLinesForCounting content
  let totalLines := lines.length
  if totalLines ≤ maxLines ∧ totalBytes ≤ maxBytes then
    { content, truncated := false, truncatedBy := none, totalLines, totalBytes, outputLines := totalLines
      firstLineExceedsLimit := false }
  else if lines.head?.any (maxBytes < utf8Len ·) then
    { content := [], truncated := true, truncatedBy := some .bytes, totalLines, totalBytes, outputLines := 0
      firstLineExceedsLimit := true }
  else
    let kept := keepHead maxLines maxBytes {} lines
    { content := joinLines kept.lines, truncated := true, truncatedBy := some (truncatedBy kept), totalLines, totalBytes
      outputLines := kept.lines.length, firstLineExceedsLimit := false }

namespace Python

/-- `truncate_head`: a cut that kept all the lines it may is named after the lines. -/
def truncateHead (maxLines maxBytes : Nat) (content : List Char) : Truncation :=
  truncateHeadBy (fun kept => if maxLines ≤ kept.lines.length ∧ kept.bytes ≤ maxBytes then .lines else kept.truncatedBy)
    maxLines maxBytes content

end Python

namespace Rust

/-- `truncate_head`: a cut is named after what ended the loop. -/
def truncateHead (maxLines maxBytes : Nat) (content : List Char) : Truncation :=
  truncateHeadBy HeadKept.truncatedBy maxLines maxBytes content

end Rust

variable {maxLines maxBytes : Nat}

/-- The loop stops at the byte ceiling only while it may keep more lines. -/
theorem keepHead_truncatedBy {kept : HeadKept} (h : kept.truncatedBy = .lines) (lines : List (List Char)) :
    (keepHead maxLines maxBytes kept lines).truncatedBy = .lines ∨
      (keepHead maxLines maxBytes kept lines).lines.length < maxLines := by
  induction lines generalizing kept with
  | nil => exact Or.inl h
  | cons line rest ih =>
    rw [keepHead]
    split_ifs with hlines hbytes
    · exact Or.inl h
    · exact Or.inr (by simpa using hlines)
    · exact ih h

/-- The two bindings cut alike. -/
theorem truncateHead_agrees (content : List Char) :
    Python.truncateHead maxLines maxBytes content = Rust.truncateHead maxLines maxBytes content := by
  have hname : (if maxLines ≤ (keepHead maxLines maxBytes {} (splitLinesForCounting content)).lines.length ∧
      (keepHead maxLines maxBytes {} (splitLinesForCounting content)).bytes ≤ maxBytes then TruncatedBy.lines
      else (keepHead maxLines maxBytes {} (splitLinesForCounting content)).truncatedBy) =
      (keepHead maxLines maxBytes {} (splitLinesForCounting content)).truncatedBy := by
    have hkept : ({} : HeadKept).truncatedBy = .lines := rfl
    rcases @keepHead_truncatedBy maxLines maxBytes _ hkept (splitLinesForCounting content) with hby | hlt
    · rw [hby, ite_self]
    · rw [if_neg fun hboth => absurd hboth.1 (by omega)]
  simp only [Python.truncateHead, Rust.truncateHead, truncateHeadBy, hname]

/-! ## What the loop keeps -/

theorem utf8Len_joinLines_concat (lines : List (List Char)) (line : List Char) :
    utf8Len (joinLines (lines ++ [line])) =
      utf8Len (joinLines lines) + (utf8Len line + if 0 < lines.length then 1 else 0) := by
  induction lines with
  | nil => simp [joinLines]
  | cons first lines ih =>
    have hne : (lines ++ [line]).isEmpty = false := by cases lines <;> rfl
    rw [List.cons_append, joinLines_cons, joinLines_cons, ih, hne]
    cases lines <;> simp <;> omega

/-- The size of what was kept. -/
def HeadKept.Counted (kept : HeadKept) : Prop := kept.bytes = utf8Len (joinLines kept.lines)

theorem HeadKept.Counted.add {kept : HeadKept} (h : kept.Counted) (line : List Char) : (kept.add line).Counted := by
  show kept.bytes + kept.lineBytes line = utf8Len (joinLines (kept.lines ++ [line]))
  rw [utf8Len_joinLines_concat, h, lineBytes]

/-- The loop keeps some of the lines, within both ceilings. -/
theorem keepHead_spec {kept : HeadKept} (hcounted : kept.Counted) (hlines : kept.lines.length ≤ maxLines)
    (hbytes : kept.bytes ≤ maxBytes) (lines : List (List Char)) :
    ∃ k ≤ lines.length, (keepHead maxLines maxBytes kept lines).lines = kept.lines ++ lines.take k ∧
      kept.lines.length + k ≤ maxLines ∧ utf8Len (joinLines (kept.lines ++ lines.take k)) ≤ maxBytes := by
  induction lines generalizing kept with
  | nil => exact ⟨0, Nat.le_refl 0, by simp [keepHead], hlines, by simpa using hcounted ▸ hbytes⟩
  | cons line rest ih =>
    rw [keepHead]
    split_ifs with hfull hover
    · exact ⟨0, Nat.zero_le _, by simp, hlines, by simpa using hcounted ▸ hbytes⟩
    · exact ⟨0, Nat.zero_le _, by simp, hlines, by simpa using hcounted ▸ hbytes⟩
    · have hlen : (kept.add line).lines.length ≤ maxLines := by
        simp only [HeadKept.add, List.length_append, List.length_singleton]
        omega
      have hsize : (kept.add line).bytes ≤ maxBytes := Nat.not_lt.mp hover
      obtain ⟨k, hk, hkept, hcount, hfits⟩ := ih (hcounted.add line) hlen hsize
      refine ⟨k + 1, by simpa using hk, ?_, ?_, ?_⟩
      · simpa [HeadKept.add] using hkept
      · simp only [HeadKept.add, List.length_append, List.length_singleton] at hcount
        omega
      · simpa [HeadKept.add] using hfits

/-- A first line that fits is kept. -/
theorem keepHead_ne_nil {line : List Char} (hlines : 0 < maxLines) (hline : utf8Len line ≤ maxBytes)
    (rest : List (List Char)) : (keepHead maxLines maxBytes {} (line :: rest)).lines ≠ [] := by
  have hfull : ¬ maxLines ≤ ({} : HeadKept).lines.length := by
    show ¬ maxLines ≤ 0
    omega
  have hover : ¬ maxBytes < ({} : HeadKept).bytes + ({} : HeadKept).lineBytes line := by
    show ¬ maxBytes < 0 + (utf8Len line + 0)
    omega
  rw [keepHead, if_neg hfull, if_neg hover]
  have hcounted : (({} : HeadKept).add line).Counted := @HeadKept.Counted.add {} rfl line
  obtain ⟨k, -, hkept, -⟩ := keepHead_spec hcounted (show 1 ≤ maxLines by omega)
    (show 0 + (utf8Len line + 0) ≤ maxBytes by omega) rest
  rw [hkept]
  simp [HeadKept.add]

/-! ## Lines joined by newlines -/

/-- Lines as `split("\n")` gives them. -/
structure AreLines (lines : List (List Char)) : Prop where
  ne_nil : lines ≠ []
  no_newline : ∀ line ∈ lines, '\n' ∉ line

theorem areLines_splitOn (text : List Char) : AreLines (text.splitOn '\n') :=
  ⟨List.splitOn_ne_nil '\n' text, fun _ h => SplitOn.not_mem_of_mem_splitOn h⟩

/-- Some of the lines are lines. -/
theorem AreLines.sublist {lines some : List (List Char)} (h : AreLines lines) (hsub : some.Sublist lines)
    (hne : some ≠ []) : AreLines some :=
  ⟨hne, fun line hline => h.no_newline line (hsub.subset hline)⟩

/-- The counted lines are the lines, or all but an empty last one. -/
theorem splitLinesForCounting_joinLines {lines : List (List Char)} (h : AreLines lines) :
    splitLinesForCounting (joinLines lines) = lines ∨ splitLinesForCounting (joinLines lines) = lines.dropLast := by
  have hsplit : (joinLines lines).splitOn '\n' = lines := List.splitOn_intercalate '\n' h.no_newline h.ne_nil
  rw [splitLinesForCounting, hsplit]
  split_ifs with hnil hends
  · rw [hnil] at hsplit
    exact Or.inr (by rw [← hsplit]; rfl)
  · exact Or.inr rfl
  · exact Or.inl rfl

/-- The first counted line is the first line, if any line is counted. -/
theorem head_splitLinesForCounting {line : List Char} {rest : List (List Char)} (h : AreLines (line :: rest)) :
    (splitLinesForCounting (joinLines (line :: rest))).head? = some line ∨
      joinLines (line :: rest) = [] ∧ line = [] := by
  rcases splitLinesForCounting_joinLines h with heq | heq
  · rw [heq]
    exact Or.inl rfl
  · rw [heq]
    cases rest with
    | nil =>
      have hline : joinLines [line] = line := by simp [joinLines]
      have hnil : line = [] := by
        by_contra hne
        rw [hline] at heq
        exact splitLinesForCounting_ne_nil hne heq
      exact Or.inr ⟨hline.trans hnil, hnil⟩
    | cons next rest => exact Or.inl rfl

/-- A cut shows no line where the first one alone exceeds the ceiling. -/
theorem firstLineExceedsLimit_iff {line : List Char} {rest : List (List Char)} (h : AreLines (line :: rest)) :
    (Rust.truncateHead maxLines maxBytes (joinLines (line :: rest))).firstLineExceedsLimit = true ↔
      maxBytes < utf8Len line := by
  rw [Rust.truncateHead]
  simp only [truncateHeadBy]
  have hfirst : utf8Len line ≤ utf8Len (joinLines (line :: rest)) := by
    rw [joinLines_cons]
    omega
  rcases head_splitLinesForCounting h with hhead | ⟨hempty, hnil⟩
  · rw [hhead]
    split_ifs with hwithin hlong
    · simp only [false_iff]
      omega
    · simpa using hlong
    · simpa using hlong
  · rw [hempty, hnil]
    rw [if_pos ⟨Nat.zero_le _, Nat.zero_le _⟩]
    simp

theorem firstLineExceedsLimit_nil :
    (Rust.truncateHead maxLines maxBytes (joinLines [])).firstLineExceedsLimit = false := by
  have hwithin : (splitLinesForCounting (joinLines [])).length ≤ maxLines ∧ utf8Len (joinLines []) ≤ maxBytes :=
    ⟨Nat.zero_le _, Nat.zero_le _⟩
  rw [Rust.truncateHead, truncateHeadBy, if_pos hwithin]

/-- What a cut of joined lines shows. -/
structure ShowsHead (lines : List (List Char)) (t : Truncation) : Prop where
  whole : t.truncated = false → t.content = joinLines lines
  part : t.truncated = true → 0 < t.outputLines ∧ t.outputLines < lines.length ∧
    t.content = joinLines (lines.take t.outputLines)
  fits : t.firstLineExceedsLimit = false

/-- Of lines that each fit, all are shown, or at least the first and not all. -/
theorem truncateHead_joinLines {lines : List (List Char)} (h : AreLines lines) (hmax : 0 < maxLines)
    (hfits : ∀ line ∈ lines, utf8Len line ≤ maxBytes) :
    ShowsHead lines (Rust.truncateHead maxLines maxBytes (joinLines lines)) := by
  have hsub : ∀ line ∈ splitLinesForCounting (joinLines lines), line ∈ lines := by
    intro line hline
    rcases splitLinesForCounting_joinLines h with heq | heq
    · exact heq ▸ hline
    · exact (List.dropLast_sublist lines).subset (heq ▸ hline)
  rw [Rust.truncateHead]
  by_cases hwithin : (splitLinesForCounting (joinLines lines)).length ≤ maxLines ∧ utf8Len (joinLines lines) ≤ maxBytes
  · rw [truncateHeadBy, if_pos hwithin]
    exact ⟨fun _ => rfl, fun hcut => by simp at hcut, rfl⟩
  · have hfirst : ¬ (splitLinesForCounting (joinLines lines)).head?.any (maxBytes < utf8Len ·) = true := by
      cases hlines : splitLinesForCounting (joinLines lines) with
      | nil => simp
      | cons line rest =>
        have hline := hfits line (hsub line (hlines ▸ List.mem_cons_self))
        simpa using hline
    obtain ⟨k, hk, hkept, hcount, hsize⟩ := @keepHead_spec maxLines maxBytes {} rfl (Nat.zero_le _) (Nat.zero_le _)
      (splitLinesForCounting (joinLines lines))
    have hpos : (keepHead maxLines maxBytes {} (splitLinesForCounting (joinLines lines))).lines ≠ [] := by
      cases hlines : splitLinesForCounting (joinLines lines) with
      | nil =>
        -- without lines there is no text, and nothing to cut
        have hnone : joinLines lines = [] := by
          by_contra hne
          exact splitLinesForCounting_ne_nil hne hlines
        exact absurd ⟨by simp [hlines], by simp [hnone]⟩ hwithin
      | cons line rest => exact keepHead_ne_nil hmax (hfits line (hsub line (hlines ▸ List.mem_cons_self))) rest
    have htake : (splitLinesForCounting (joinLines lines)).take k = lines.take k ∧ k < lines.length := by
      have hlength := List.length_pos_iff.mpr h.ne_nil
      rcases splitLinesForCounting_joinLines h with heq | heq
      · rw [heq] at hk hsize hwithin ⊢
        refine ⟨rfl, Nat.lt_of_le_of_ne hk fun hall => hwithin ?_⟩
        -- all lines kept: both ceilings hold
        rw [hall, List.take_length] at hsize
        exact ⟨by simpa [hall] using hcount, hsize⟩
      · rw [heq, List.length_dropLast] at hk
        rw [heq, List.dropLast_eq_take, List.take_take, Nat.min_eq_left hk]
        exact ⟨rfl, by omega⟩
    have hlines : (keepHead maxLines maxBytes {} (splitLinesForCounting (joinLines lines))).lines = lines.take k := by
      rw [hkept, htake.1]
      rfl
    have hlen : (lines.take k).length = k := List.length_take_of_le (Nat.le_of_lt htake.2)
    have hcut : truncateHeadBy HeadKept.truncatedBy maxLines maxBytes (joinLines lines) =
        { content := joinLines (lines.take k), truncated := true
          truncatedBy := some (keepHead maxLines maxBytes {} (splitLinesForCounting (joinLines lines))).truncatedBy
          totalLines := (splitLinesForCounting (joinLines lines)).length, totalBytes := utf8Len (joinLines lines)
          outputLines := k, firstLineExceedsLimit := false } := by
      simp only [truncateHeadBy, if_neg hwithin, if_neg hfirst, hlines, hlen]
    rw [hcut]
    rw [hlines] at hpos
    exact ⟨fun hwhole => by simp at hwhole, fun _ => ⟨hlen ▸ List.length_pos_iff.mpr hpos, htake.2, rfl⟩, rfl⟩

end MinionAgent
