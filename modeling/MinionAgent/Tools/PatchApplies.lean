import MinionAgent.Tools.UnifiedPatch

/-!
# MinionAgent.Tools.PatchApplies

The unified patch of two texts applies.

A hunk is open behind so many lines of either text with the edits it has so far,
or it is closed and a gap of unchanged lines is left out; what a hunk takes from
the component before is the end of the gap, which a long component leaves room
for.

* `hunkLoop_cuts` — the hunks are cut from the line diff;
* `readHunk_printed` — what is printed of a hunk is read back;
* `patch_applies` — so the patch takes the old text to the new one, and, reversed,
  the new one to the old.
-/

namespace MinionAgent

namespace JsDiff

open TerminatedLines (lines)
open LinePatch (Mark Cuts oldSide newSide kept)

/-! ## What is cut -/

/-- What happens to the lines of a component. -/
def Component.mark (c : Component Text) : Mark :=
  if c.added then .add else if c.removed then .remove else .context

/-- The edits of the components. -/
def rowEdits (rows : List (Component Text × List Text)) : List (LinePatch.Edit Text) :=
  rows.flatMap fun row => row.2.map fun line => (row.1.mark, line)

/-- A marked line, with its ending. -/
def markedLine (edit : LinePatch.Edit Text) : Text := markUnit edit.1 :: edit.2

/-- A hunk, with the endings of its lines. -/
def rawHunk (h : LinePatch.Hunk Text) : Hunk :=
  { oldStart := h.oldAt + 1
    oldLines := (oldSide h.body).length
    newStart := h.newAt + 1
    newLines := (newSide h.body).length
    lines := h.body.map markedLine }

/-- No hunk is open: behind `o` and `n` lines the ones of the gap are left out. -/
structure IsClosed (o n : Nat) (gap : List Text) (s : HunkState) : Prop where
  oldRangeStart : s.oldRangeStart = 0
  newRangeStart : s.newRangeStart = 0
  curRange : s.curRange = []
  oldLine : s.oldLine = o + gap.length + 1
  newLine : s.newLine = n + gap.length + 1

/-- A hunk is open: behind `o` and `n` lines it has the edits so far. -/
structure IsOpen (o n : Nat) (edits : List (LinePatch.Edit Text)) (s : HunkState) : Prop where
  oldRangeStart : s.oldRangeStart = o + 1
  newRangeStart : s.newRangeStart = n + 1
  curRange : s.curRange = edits.map markedLine
  oldLine : s.oldLine = o + (oldSide edits).length + 1
  newLine : s.newLine = n + (newSide edits).length + 1

/-- The last lines of the component before, as a hunk is opened with them. -/
def lastLines (context : Nat) : Option (List Text) → List Text
  | none => []
  | some lines => lines.drop (lines.length - context)

section steps

variable {o n context : Nat} {gap ls : List Text} {edits : List (LinePatch.Edit Text)} {s : HunkState}
  {prev : Option (List Text)}

theorem map_markedLine_kept (ls : List Text) : (kept ls).map markedLine = ls.map (32 :: ·) := by
  simp [kept, markedLine, markUnit, Function.comp_def]

/-- A hunk is opened in the gap. -/
theorem IsClosed.openHunk (h : IsClosed o n gap s) {front : List Text} (hgap : gap = front ++ lastLines context prev) :
    IsOpen (o + front.length) (n + front.length) (kept (lastLines context prev)) (openHunk context prev s) ∧
      (JsDiff.openHunk context prev s).hunks = s.hunks := by
  have hold := h.oldLine
  have hnew := h.newLine
  have hlen : gap.length = front.length + (lastLines context prev).length := by rw [hgap, List.length_append]
  cases prev with
  | none =>
    simp only [lastLines, List.length_nil] at hlen
    refine ⟨⟨?_, ?_, ?_, ?_, ?_⟩, ?_⟩ <;>
      simp [JsDiff.openHunk, h.oldRangeStart, h.curRange, lastLines, kept, oldSide, newSide] <;> omega
  | some lines =>
    have hcur : (if context > 0 then (lines.drop (lines.length - context)).map ((32 : UInt16) :: ·) else []) =
        (lastLines context (some lines)).map (32 :: ·) := by
      split
      · rfl
      · obtain rfl : context = 0 := by omega
        simp [lastLines]
    refine ⟨⟨?_, ?_, ?_, ?_, ?_⟩, ?_⟩ <;> simp only [JsDiff.openHunk, if_pos h.oldRangeStart, hcur]
    · rw [List.length_map]
      omega
    · rw [List.length_map]
      omega
    · rw [map_markedLine_kept]
    · rw [LinePatch.oldSide_kept]
      omega
    · rw [LinePatch.newSide_kept]
      omega

/-- An open hunk stays open. -/
theorem IsOpen.openHunk (h : IsOpen o n edits s) : openHunk context prev s = s := by
  have := h.oldRangeStart
  exact if_neg (by omega)

/-- A changed component is added to the hunk. -/
theorem IsOpen.changedStep (h : IsOpen o n edits (JsDiff.openHunk context prev s)) (added : Bool) (ls : List Text) :
    IsOpen o n (edits ++ ls.map fun line => (if added then .add else .remove, line))
        (changedStep context prev added ls s) ∧
      (JsDiff.changedStep context prev added ls s).hunks = (JsDiff.openHunk context prev s).hunks := by
  have hold := h.oldLine
  have hnew := h.newLine
  cases added with
  | false =>
    have hremoved : oldSide (ls.map fun line => (Mark.remove, line)) = ls ∧
        newSide (ls.map fun line => (Mark.remove, line)) = [] := by
      simp [oldSide, newSide, List.filter_map, Function.comp_def]
    refine ⟨⟨h.oldRangeStart, h.newRangeStart, ?_, ?_, ?_⟩, rfl⟩
    · show _ ++ _ = _
      rw [h.curRange, List.map_append]
      simp [markedLine, markUnit]
    · show _ + (ls.length : Int) = _
      simp [hremoved.1, hold]
      omega
    · show (JsDiff.openHunk context prev s).newLine = _
      simp [hremoved.2, hnew]
  | true =>
    have hadded : oldSide (ls.map fun line => (Mark.add, line)) = [] ∧
        newSide (ls.map fun line => (Mark.add, line)) = ls := by
      simp [oldSide, newSide, List.filter_map, Function.comp_def]
    refine ⟨⟨h.oldRangeStart, h.newRangeStart, ?_, ?_, ?_⟩, rfl⟩
    · show _ ++ _ = _
      rw [h.curRange, List.map_append]
      simp [markedLine, markUnit]
    · show (JsDiff.openHunk context prev s).oldLine = _
      simp [hadded.1, hold]
    · show _ + (ls.length : Int) = _
      simp [hadded.2, hnew]
      omega

/-- Unchanged lines outside of a hunk are left out. -/
theorem IsClosed.unchangedStep (h : IsClosed o n gap s) (context : Nat) (beforeLast : Bool) (ls : List Text) :
    IsClosed o n (gap ++ ls) (unchangedStep context beforeLast ls s) ∧
      (JsDiff.unchangedStep context beforeLast ls s).hunks = s.hunks := by
  have hold := h.oldLine
  have hnew := h.newLine
  have hclosed : ¬s.oldRangeStart ≠ 0 := not_not.2 h.oldRangeStart
  simp only [JsDiff.unchangedStep, if_neg hclosed]
  refine ⟨⟨h.oldRangeStart, h.newRangeStart, h.curRange, ?_, ?_⟩, trivial⟩
  · simp only [List.length_append]
    omega
  · simp only [List.length_append]
    omega

/-- A short unchanged component before another change is context of the hunk. -/
theorem IsOpen.unchangedStep_short (h : IsOpen o n edits s) {beforeLast : Bool} {ls : List Text}
    (hshort : ls.length ≤ context * 2 ∧ beforeLast) :
    IsOpen o n (edits ++ kept ls) (unchangedStep context beforeLast ls s) ∧
      (unchangedStep context beforeLast ls s).hunks = s.hunks := by
  have hold := h.oldLine
  have hnew := h.newLine
  have hopen : s.oldRangeStart ≠ 0 := by
    have := h.oldRangeStart
    omega
  simp only [unchangedStep, if_pos hopen, if_pos hshort]
  refine ⟨⟨h.oldRangeStart, h.newRangeStart, ?_, ?_, ?_⟩, trivial⟩
  · rw [h.curRange, List.map_append, map_markedLine_kept]
  · simp only [LinePatch.oldSide_append, LinePatch.oldSide_kept, List.length_append]
    omega
  · simp only [LinePatch.newSide_append, LinePatch.newSide_kept, List.length_append]
    omega

/-- Any other closes it with its first lines. -/
theorem IsOpen.unchangedStep_long (h : IsOpen o n edits s) {beforeLast : Bool} {ls : List Text}
    (hlong : ¬(ls.length ≤ context * 2 ∧ beforeLast)) :
    IsClosed (o + (oldSide (edits ++ kept (ls.take context))).length)
        (n + (newSide (edits ++ kept (ls.take context))).length) (ls.drop context)
        (unchangedStep context beforeLast ls s) ∧
      (unchangedStep context beforeLast ls s).hunks =
        s.hunks ++ [rawHunk { oldAt := o, newAt := n, body := edits ++ kept (ls.take context) }] := by
  have hold := h.oldLine
  have hnew := h.newLine
  have hstartOld := h.oldRangeStart
  have hstartNew := h.newRangeStart
  have hopen : s.oldRangeStart ≠ 0 := by omega
  have htake : ls.take (min ls.length context) = ls.take context := by
    rw [Nat.min_comm, ← List.take_take, List.take_length]
  have hdrop : (ls.drop context).length = ls.length - context := List.length_drop
  have hsize : (ls.take context).length = min context ls.length := List.length_take
  simp only [unchangedStep, if_pos hopen, if_neg hlong]
  refine ⟨⟨rfl, rfl, rfl, ?_, ?_⟩, ?_⟩
  · simp only [LinePatch.oldSide_append, LinePatch.oldSide_kept, List.length_append]
    omega
  · simp only [LinePatch.newSide_append, LinePatch.newSide_kept, List.length_append]
    omega
  · simp only [rawHunk, LinePatch.oldSide_append, LinePatch.oldSide_kept, LinePatch.newSide_append,
      LinePatch.newSide_kept, List.length_append, List.map_append, map_markedLine_kept, htake, h.curRange]
    congr 3 <;> omega

end steps

/-- The edits of a component and of the ones behind it. -/
theorem rowEdits_cons (row : Component Text × List Text) (rows : List (Component Text × List Text)) :
    rowEdits (row :: rows) = (row.2.map fun line => (row.1.mark, line)) ++ rowEdits rows := rfl

/-- The hunks the loop adds are cut from the edits, from an open hunk on as well as from a gap, whose
last lines are those of the component before. -/
theorem hunkLoop_cuts (context : Nat) (rows : List (Component Text × List Text))
    (sentinel : Component Text) (hsentinel : (sentinel.added || sentinel.removed) = false) :
    (∀ prev s o n gap, IsClosed o n gap s →
      ((∀ row ∈ rows, (row.1.added || row.1.removed) = false) ∨ ∃ front, gap = front ++ lastLines context prev) →
      ∃ hs, (hunkLoop context prev (rows ++ [(sentinel, [])]) s).hunks = s.hunks ++ hs.map rawHunk ∧
        Cuts o n (kept gap ++ rowEdits rows) hs) ∧
    ∀ prev s o n edits, IsOpen o n edits s →
      ∃ hs, (hunkLoop context prev (rows ++ [(sentinel, [])]) s).hunks = s.hunks ++ hs.map rawHunk ∧
        Cuts o n (edits ++ rowEdits rows) hs := by
  induction rows with
  | nil =>
    have hlast (prev : Option (List Text)) (s : HunkState) :
        hunkLoop context prev [(sentinel, [])] s = unchangedStep context false [] s := by
      simp [hunkLoop, hsentinel]
    refine ⟨fun prev s o n gap h _ => ⟨[], ?_, ?_⟩, fun prev s o n edits h => ⟨[⟨o, n, edits⟩], ?_, ?_⟩⟩
    · rw [List.nil_append, hlast, (h.unchangedStep context false []).2, List.map_nil, List.append_nil]
    · simpa [rowEdits] using (Cuts.done : Cuts o n (kept gap) [])
    · -- the sentinel closes the hunk that is still open
      rw [List.nil_append, hlast, (h.unchangedStep_long (by simp)).2]
      simp [kept]
    · exact Cuts.hunk_here (@Cuts.done _ _ _ [])
  | cons row rows ih =>
    obtain ⟨current, ls⟩ := row
    obtain ⟨ihClosed, ihOpen⟩ := ih
    rw [rowEdits_cons]
    by_cases hchanged : (current.added || current.removed) = true
    · have hstep (prev : Option (List Text)) (s : HunkState) :
          hunkLoop context prev ((current, ls) :: rows ++ [(sentinel, [])]) s =
            hunkLoop context (some ls) (rows ++ [(sentinel, [])]) (changedStep context prev current.added ls s) := by
        rw [List.cons_append, hunkLoop, if_pos hchanged]
      have hmark : (if current.added then Mark.add else Mark.remove) = current.mark := by
        cases ha : current.added <;> simp_all [Component.mark]
      refine ⟨fun prev s o n gap h hgap => ?_, fun prev s o n edits h => ?_⟩
      · obtain hnone | ⟨front, rfl⟩ := hgap
        · exact absurd hchanged (by simp [hnone (current, ls) List.mem_cons_self])
        · obtain ⟨hopen, hhunks⟩ := h.openHunk rfl
          obtain ⟨hopen', hhunks'⟩ := hopen.changedStep current.added ls
          obtain ⟨hs, heq, hcuts⟩ := ihOpen (some ls) _ _ _ _ hopen'
          refine ⟨hs, by rw [hstep, heq, hhunks', hhunks], ?_⟩
          rw [hmark, List.append_assoc] at hcuts
          rw [LinePatch.kept_append, List.append_assoc]
          exact hcuts.kept_before
      · have hopen : IsOpen o n edits (openHunk context prev s) := by rwa [h.openHunk]
        obtain ⟨hopen', hhunks'⟩ := hopen.changedStep current.added ls
        obtain ⟨hs, heq, hcuts⟩ := ihOpen (some ls) _ _ _ _ hopen'
        refine ⟨hs, by rw [hstep, heq, hhunks', h.openHunk], ?_⟩
        rwa [hmark, List.append_assoc] at hcuts
    · have hsame : (current.added || current.removed) = false := by simpa using hchanged
      have hstep (prev : Option (List Text)) (s : HunkState) :
          hunkLoop context prev ((current, ls) :: rows ++ [(sentinel, [])]) s =
            hunkLoop context (some ls) (rows ++ [(sentinel, [])])
              (unchangedStep context (decide (1 ≤ rows.length)) ls s) := by
        rw [List.cons_append, hunkLoop, if_neg hchanged]
        simp
      have hmark : (ls.map fun line => (current.mark, line)) = kept ls := by
        have : current.mark = .context := by simp_all [Component.mark]
        rw [this]
        rfl
      refine ⟨fun prev s o n gap h hgap => ?_, fun prev s o n edits h => ?_⟩
      · obtain ⟨hclosed, hhunks⟩ := h.unchangedStep context (decide (1 ≤ rows.length)) ls
        obtain ⟨hs, heq, hcuts⟩ := ihClosed (some ls) _ _ _ _ hclosed
          (.inr ⟨gap ++ ls.take (ls.length - context), by simp [lastLines]⟩)
        refine ⟨hs, by rw [hstep, heq, hhunks], ?_⟩
        rwa [hmark, ← List.append_assoc, ← LinePatch.kept_append]
      · by_cases hshort : ls.length ≤ context * 2 ∧ decide (1 ≤ rows.length) = true
        · obtain ⟨hopen, hhunks⟩ := h.unchangedStep_short hshort
          obtain ⟨hs, heq, hcuts⟩ := ihOpen (some ls) _ _ _ _ hopen
          refine ⟨hs, by rw [hstep, heq, hhunks], ?_⟩
          rwa [hmark, ← List.append_assoc]
        · obtain ⟨hclosed, hhunks⟩ := h.unchangedStep_long hshort
          obtain ⟨hs, heq, hcuts⟩ := ihClosed (some ls) _ _ _ _ hclosed (by
            -- what is left of a long component has room for the context of the next hunk
            by_cases hlen : ls.length ≤ context * 2
            · have hnil : rows = [] := by simpa using fun h => hshort ⟨hlen, h⟩
              exact .inl (by simp [hnil])
            · refine .inr ⟨(ls.drop context).take (ls.length - 2 * context), ?_⟩
              have hlast : lastLines context (some ls) = (ls.drop context).drop (ls.length - 2 * context) := by
                rw [lastLines, List.drop_drop]
                congr 1
                omega
              rw [hlast, List.take_append_drop])
          refine ⟨⟨o, n, edits ++ kept (ls.take context)⟩ :: hs, by rw [hstep, heq, hhunks]; simp, ?_⟩
          have hlines : kept ls = kept (ls.take context) ++ kept (ls.drop context) := by
            rw [← LinePatch.kept_append, List.take_append_drop]
          have hcut := hcuts.hunk_here
          rw [hmark, hlines]
          simpa only [List.append_assoc] using hcut

/-! ## What is printed is read back -/

theorem markUnit_ne (mark : Mark) : markUnit mark ≠ 10 ∧ markUnit mark ≠ 92 := by cases mark <;> decide

theorem readLine_cons (mark : Mark) (line : Text) : readLine (markUnit mark :: line) = some (mark, line) := by
  cases mark <;> rfl

theorem reverseLine_cons (mark : Mark) (line : Text) :
    reverseLine (markUnit mark :: line) = markUnit mark.swap :: line := by
  cases mark <;> rfl

/-- The marker behind a line is not a marked line. -/
theorem noNewline_ne (mark : Mark) (line : Text) : markUnit mark :: line ≠ noNewline := fun h =>
  (markUnit_ne mark).2 (List.cons.inj h).1

/-- A marked line loses the ending of the line, or the marker comes behind it. -/
theorem markEndings_markedLine (edit : LinePatch.Edit Text) (rest : List Text) :
    markEndings (markedLine edit :: rest) =
      (if edit.2.getLast? = some 10 then [markUnit edit.1 :: edit.2.dropLast] else [markedLine edit, noNewline]) ++
        markEndings rest := by
  obtain ⟨mark, line⟩ := edit
  rw [markEndings, List.flatMap_cons, ← markEndings]
  cases line with
  | nil => simp [markedLine, (markUnit_ne mark).1]
  | cons u line => simp [markedLine, List.getLast?_cons_cons, List.dropLast_cons_cons]

/-- No body begins with the marker. -/
theorem head_markEndings (edits : List (LinePatch.Edit Text)) :
    (markEndings (edits.map markedLine)).head? ≠ some noNewline := by
  cases edits with
  | nil => simp [markEndings]
  | cons edit edits =>
    rw [List.map_cons, markEndings_markedLine]
    split
    · simpa using noNewline_ne edit.1 edit.2.dropLast
    · simpa [markedLine] using noNewline_ne edit.1 edit.2

/-- A line with no marker behind it is read with its ending. -/
theorem readBody_cons {line : Text} {rest : List Text} (h : rest.head? ≠ some noNewline) :
    readBody (line :: rest) =
      (readLine (line ++ [10])).bind fun edit => (readBody rest).map (edit :: ·) := by
  cases rest with
  | nil => cases hread : readLine (line ++ [10]) <;> simp [readBody, hread]
  | cons next rest =>
    have hne : next ≠ noNewline := by simpa using h
    rw [readBody, if_neg hne]

/-- The body of a hunk is read back. -/
theorem readBody_markEndings (edits : List (LinePatch.Edit Text)) :
    readBody (markEndings (edits.map markedLine)) = some edits := by
  induction edits with
  | nil => rfl
  | cons edit edits ih =>
    rw [List.map_cons, markEndings_markedLine]
    split
    · rename_i hend
      have hline : edit.2 = edit.2.dropLast ++ [10] := by
        obtain ⟨line, hline⟩ := List.getLast?_eq_some_iff.1 hend
        rw [hline, List.dropLast_concat]
      rw [List.singleton_append, readBody_cons (head_markEndings edits), List.cons_append, ← hline, readLine_cons, ih]
      rfl
    · show readBody (markedLine edit :: noNewline :: markEndings (edits.map markedLine)) = _
      rw [readBody, if_pos rfl, ih, markedLine, readLine_cons]
      rfl

/-- The body of a reversed hunk is that of the reversed edits. -/
theorem reverseLine_markEndings (edits : List (LinePatch.Edit Text)) :
    (markEndings (edits.map markedLine)).map reverseLine = markEndings ((LinePatch.swap edits).map markedLine) := by
  induction edits with
  | nil => rfl
  | cons edit edits ih =>
    have hswap : LinePatch.swap (edit :: edits) = (edit.1.swap, edit.2) :: LinePatch.swap edits := rfl
    rw [hswap, List.map_cons, List.map_cons, markEndings_markedLine, markEndings_markedLine, List.map_append, ih]
    congr 1
    split
    · rw [List.map_singleton, reverseLine_cons]
    · rw [List.map_cons, List.map_singleton, markedLine, reverseLine_cons]
      rfl

/-- A hunk as it is printed. -/
def printedHunk (h : LinePatch.Hunk Text) : Hunk :=
  { rawHunk h with lines := markEndings (rawHunk h).lines }.printed

/-- What is printed of a hunk is read back. -/
theorem readHunk_printed (h : LinePatch.Hunk Text) : readHunk (printedHunk h) = some h := by
  have hbefore (place count : Nat) :
      linesBefore (if (count : Int) = 0 then (place : Int) + 1 - 1 else place + 1) count = place := by
    simp only [linesBefore]
    split <;> omega
  have hold : linesBefore (printedHunk h).oldStart (printedHunk h).oldLines = h.oldAt := hbefore _ _
  have hnew : linesBefore (printedHunk h).newStart (printedHunk h).newLines = h.newAt := hbefore _ _
  have hbody : readBody (printedHunk h).lines = some h.body := readBody_markEndings h.body
  rw [readHunk, hbody, Option.bind_some, hold, hnew, if_pos ⟨rfl, rfl, by omega, by omega⟩]
  rfl

/-- A hunk printed and reversed is the reversed hunk printed. -/
theorem reverse_printed (h : LinePatch.Hunk Text) : (printedHunk h).reverse = printedHunk h.swap := by
  simp [printedHunk, Hunk.printed, Hunk.reverse, rawHunk, LinePatch.Hunk.swap, reverseLine_markEndings]

/-- The lines of a body that are kept or removed, and the ones that are kept or added, are counted by
their marks. -/
theorem count_markEndings (edits : List (LinePatch.Edit Text)) :
    ((markEndings (edits.map markedLine)).filter fun line => line.head? = some 32 ∨ line.head? = some 45).length =
        (oldSide edits).length ∧
      ((markEndings (edits.map markedLine)).filter fun line => line.head? = some 32 ∨ line.head? = some 43).length =
        (newSide edits).length := by
  induction edits with
  | nil => exact ⟨rfl, rfl⟩
  | cons edit edits ih =>
    obtain ⟨mark, line⟩ := edit
    have hmarker : noNewline.head? = some 92 := rfl
    rw [List.map_cons, markEndings_markedLine]
    cases mark <;> split <;>
      simp_all [markedLine, markUnit, oldSide, newSide]

/-! ## The patch -/

/-- The old side of the edits of components is their old tokens. -/
theorem oldSide_rowEdits (cs : List (Component Text)) :
    oldSide (rowEdits (cs.map fun c => (c, c.tokens))) = oldTokens cs := by
  induction cs with
  | nil => rfl
  | cons c cs ih =>
    rw [List.map_cons, rowEdits_cons, LinePatch.oldSide_append, ih]
    cases ha : c.added <;> cases hr : c.removed <;>
      simp [oldSide, oldTokens, Component.mark, ha, hr, List.filter_map, Function.comp_def]

/-- The new side is their new tokens. -/
theorem newSide_rowEdits {cs : List (Component Text)} (h : ∀ c ∈ cs, ¬(c.added = true ∧ c.removed = true)) :
    newSide (rowEdits (cs.map fun c => (c, c.tokens))) = newTokens cs := by
  induction cs with
  | nil => rfl
  | cons c cs ih =>
    obtain ⟨hc, hcs⟩ := List.forall_mem_cons.1 h
    rw [List.map_cons, rowEdits_cons, LinePatch.newSide_append, ih hcs]
    cases ha : c.added <;> cases hr : c.removed
    · simp [newSide, newTokens, Component.mark, ha, hr, List.filter_map, Function.comp_def]
    · simp [newSide, newTokens, Component.mark, ha, hr, List.filter_map, Function.comp_def]
    · simp [newSide, newTokens, Component.mark, ha, hr, List.filter_map, Function.comp_def]
    · exact absurd ⟨ha, hr⟩ hc

/-- The hunks of the patch are cut from the line diff. -/
theorem patchHunks_cuts (old new : Text) (context : Nat) :
    ∃ hs edits, patchHunks old new context = hs.map printedHunk ∧ Cuts 0 0 edits hs ∧
      oldSide edits = lines 10 old ∧ newSide edits = lines 10 new := by
  have hdiff := diffLines_isDiff old new
  have hrows : (diffLines old new).map (fun c => (c, splitLines c.value)) =
      (diffLines old new).map fun c => (c, c.tokens) :=
    List.map_congr_left fun c hc => by rw [splitLines_value hc]
  obtain ⟨hs, heq, hcuts⟩ := (hunkLoop_cuts context ((diffLines old new).map fun c => (c, c.tokens))
    { count := 0, added := false, removed := false } rfl).1 none {} 0 0 [] ⟨rfl, rfl, rfl, rfl, rfl⟩ (.inr ⟨[], rfl⟩)
  refine ⟨hs, _, ?_, hcuts, ?_, ?_⟩
  · rw [patchHunks, structuredHunks, hrows, heq]
    simp [printedHunk, Function.comp_def]
  · rw [LinePatch.oldSide_append, LinePatch.oldSide_kept, List.nil_append, oldSide_rowEdits, hdiff.oldTokens]
  · rw [LinePatch.newSide_append, LinePatch.newSide_kept, List.nil_append, newSide_rowEdits hdiff.exclusive,
      hdiff.newTokens]

/-- The patch takes the old text to the new one, and reversed the new one to the old; and the counts of
each of its hunks are those of the lines of its body. -/
theorem patch_applies (old new : Text) (context : Nat) :
    applyPatch (patchHunks old new context) old = some new ∧
    applyPatch ((patchHunks old new context).map Hunk.reverse) new = some old ∧
    ∀ h ∈ patchHunks old new context,
      h.oldLines = ((h.lines.filter fun line => line.head? = some 32 ∨ line.head? = some 45).length : Int) ∧
      h.newLines = ((h.lines.filter fun line => line.head? = some 32 ∨ line.head? = some 43).length : Int) := by
  obtain ⟨hs, edits, heq, hcuts, hold, hnew⟩ := patchHunks_cuts old new context
  have hread (hs : List (LinePatch.Hunk Text)) : (hs.map printedHunk).mapM readHunk = some hs := by
    induction hs with
    | nil => rfl
    | cons h hs ih => simp [List.mapM_cons, readHunk_printed, ih]
  have hreverse : (hs.map printedHunk).map Hunk.reverse = (hs.map LinePatch.Hunk.swap).map printedHunk := by
    simp [reverse_printed]
  rw [heq]
  refine ⟨?_, ?_, fun h hh => ?_⟩
  · rw [applyPatch, hread, Option.bind_some, ← hold, hcuts.apply, hnew, Option.map_some,
      TerminatedLines.flatten_lines]
  · have hswap := hcuts.swap.apply
    rw [LinePatch.oldSide_swap, LinePatch.newSide_swap, hold, hnew] at hswap
    rw [hreverse, applyPatch, hread, Option.bind_some, hswap, Option.map_some, TerminatedLines.flatten_lines]
  · obtain ⟨cut, -, rfl⟩ := List.mem_map.1 hh
    obtain ⟨hcountOld, hcountNew⟩ := count_markEndings cut.body
    exact ⟨congrArg Nat.cast hcountOld.symm, congrArg Nat.cast hcountNew.symm⟩

end JsDiff

end MinionAgent
