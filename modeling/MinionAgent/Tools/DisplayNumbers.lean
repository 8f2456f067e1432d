import MinionAgent.Tools.DisplayDiff

/-!
# MinionAgent.Tools.DisplayNumbers

The numbers of the diff of two texts as it is shown.

The two counters are always one more than the lines done so far, whether the
lines are shown or skipped (`Shows`), so each line shown is the line of its number.

* `Shows.context`, `Shows.skip`, `Shows.removed`, `Shows.added` — what the loops
  keep;
* `Shows.contextPart`, `displayLoop_shows` — and so a component, and the run;
* `generateDiffString_numbers` — the numbers, the changes and the first of them.
-/

namespace MinionAgent

namespace JsDiff

open TerminatedLines (lines content)

/-! ## What the loops keep -/

/-- What a line says holds of the lines of the two texts. -/
def Entry.Holds (oldLines newLines : List Text) : Entry → Prop
  | .context n line => 0 < n ∧ oldLines[n - 1]? = some line ∧ line ∈ newLines
  | .removed n line => 0 < n ∧ oldLines[n - 1]? = some line
  | .added n line => 0 < n ∧ newLines[n - 1]? = some line
  | .ellipsis => True

/-- With `x` and `y` lines done, shown or skipped: the changes shown so far, and the first of them. -/
structure Shows (oldLines newLines : List Text) (width x y : Nat) (changes : List Entry) (first : Option Nat)
    (s : DisplayState) : Prop where
  output : ∃ entries : List Entry, s.output = entries.map (render width) ∧
    (∀ e ∈ entries, e.Holds oldLines newLines) ∧ entries.filter Entry.isChange = changes
  oldNum : s.oldNum = x + 1
  newNum : s.newNum = y + 1
  firstChanged : s.firstChanged = first

/-- Lines with their numbers. -/
def numbered (entry : Nat → Text → Entry) : Nat → List Text → List Entry
  | _, [] => []
  | n, line :: lines => entry n line :: numbered entry (n + 1) lines

section steps

variable {oldLines newLines raw : List Text} {width x y : Nat} {changes : List Entry} {first : Option Nat}
  {s : DisplayState}

theorem prefix_drop_cons {lines ls : List Text} {line : Text} (h : line :: ls <+: lines.drop x) :
    lines[x]? = some line ∧ ls <+: lines.drop (x + 1) := by
  obtain ⟨rest, hrest⟩ := h
  refine ⟨?_, rest, ?_⟩
  · rw [← List.head?_drop, ← hrest]
    rfl
  · rw [← List.drop_drop, ← hrest]
    rfl

theorem prefix_drop_drop {lines ls : List Text} (h : ls <+: lines.drop x) {k : Nat} (hk : k ≤ ls.length) :
    ls.drop k <+: lines.drop (x + k) := by
  obtain ⟨rest, hrest⟩ := h
  exact ⟨rest, by rw [← List.drop_drop, ← hrest, List.drop_append_of_le_length hk]⟩

/-- One more line is shown. -/
theorem Shows.push {x' y' : Nat} {s' : DisplayState} {e : Entry} {changes' : List Entry}
    (h : Shows oldLines newLines width x y changes first s) (he : e.Holds oldLines newLines)
    (houtput : s'.output = s.output ++ [render width e]) (hold : s'.oldNum = x' + 1) (hnew : s'.newNum = y' + 1)
    (hfirst : s'.firstChanged = s.firstChanged) (hchanges : changes' = changes ++ [e].filter Entry.isChange) :
    Shows oldLines newLines width x' y' changes' first s' := by
  obtain ⟨entries, heq, hholds, hfilter⟩ := h.output
  refine ⟨⟨entries ++ [e], ?_, ?_, ?_⟩, hold, hnew, hfirst.trans h.firstChanged⟩
  · rw [houtput, heq, List.map_append, List.map_singleton]
  · exact List.forall_mem_append.2 ⟨hholds, List.forall_mem_singleton.2 he⟩
  · rw [List.filter_append, hfilter, hchanges]

/-- Context lines. -/
theorem Shows.context (h : Shows oldLines newLines width x y changes first s) (hold : raw <+: oldLines.drop x)
    (hnew : raw <+: newLines.drop y) :
    Shows oldLines newLines width (x + raw.length) (y + raw.length) changes first (contextLines width raw s) := by
  induction raw generalizing x y s with
  | nil => exact h
  | cons line raw ih =>
    obtain ⟨hline, hold⟩ := prefix_drop_cons hold
    obtain ⟨hline', hnew⟩ := prefix_drop_cons hnew
    have hnum := h.oldNum
    have hpush : Shows oldLines newLines width (x + 1) (y + 1) changes first (contextLines width [line] s) :=
      h.push (e := .context (x + 1) line) ⟨x.succ_pos, hline, List.mem_of_getElem? hline'⟩
        (by rw [render, ← hnum]; rfl) (congrArg (· + 1) hnum) (congrArg (· + 1) h.newNum) rfl
        (List.append_nil changes).symm
    rw [List.length_cons, Nat.add_comm raw.length, ← Nat.add_assoc, ← Nat.add_assoc]
    exact ih hpush hold hnew

/-- Lines skipped. -/
theorem Shows.skip (h : Shows oldLines newLines width x y changes first s) (skipped : Nat) :
    Shows oldLines newLines width (x + skipped) (y + skipped) changes first (skipLines width skipped s) := by
  have hold := h.oldNum
  have hnew := h.newNum
  exact h.push (e := .ellipsis) trivial rfl (by simp only [skipLines]; omega) (by simp only [skipLines]; omega) rfl
    (List.append_nil changes).symm

/-- Removed lines. -/
theorem Shows.removed (h : Shows oldLines newLines width x y changes first s) (hold : raw <+: oldLines.drop x) :
    Shows oldLines newLines width (x + raw.length) y (changes ++ numbered .removed (x + 1) raw) first
      (changedLines width false raw s) := by
  induction raw generalizing x changes s with
  | nil => exact (List.append_nil changes).symm ▸ h
  | cons line raw ih =>
    obtain ⟨hline, hold⟩ := prefix_drop_cons hold
    have hnum := h.oldNum
    have hpush : Shows oldLines newLines width (x + 1) y (changes ++ [.removed (x + 1) line]) first
        (changedLines width false [line] s) :=
      h.push (e := .removed (x + 1) line) ⟨x.succ_pos, hline⟩ (by rw [render, ← hnum]; rfl)
        (congrArg (· + 1) hnum) h.newNum rfl rfl
    rw [List.length_cons, Nat.add_comm raw.length, ← Nat.add_assoc, numbered, ← List.singleton_append,
      ← List.append_assoc]
    exact ih hpush hold

/-- Added lines. -/
theorem Shows.added (h : Shows oldLines newLines width x y changes first s) (hnew : raw <+: newLines.drop y) :
    Shows oldLines newLines width x (y + raw.length) (changes ++ numbered .added (y + 1) raw) first
      (changedLines width true raw s) := by
  induction raw generalizing y changes s with
  | nil => exact (List.append_nil changes).symm ▸ h
  | cons line raw ih =>
    obtain ⟨hline, hnew⟩ := prefix_drop_cons hnew
    have hnum := h.newNum
    have hpush : Shows oldLines newLines width x (y + 1) (changes ++ [.added (y + 1) line]) first
        (changedLines width true [line] s) :=
      h.push (e := .added (y + 1) line) ⟨y.succ_pos, hline⟩ (by rw [render, ← hnum]; rfl)
        h.oldNum (congrArg (· + 1) hnum) rfl rfl
    rw [List.length_cons, Nat.add_comm raw.length, ← Nat.add_assoc, numbered, ← List.singleton_append,
      ← List.append_assoc]
    exact ih hpush hnew

/-- Lines that may be skipped: the ellipsis is shown only where there are some. -/
theorem Shows.skip_if (h : Shows oldLines newLines width x y changes first s) (skipped : Nat) :
    Shows oldLines newLines width (x + skipped) (y + skipped) changes first
      (if skipped > 0 then skipLines width skipped s else s) := by
  split
  · exact h.skip skipped
  · obtain rfl : skipped = 0 := by omega
    exact h

theorem Shows.at_lines {x' y' : Nat} (h : Shows oldLines newLines width x y changes first s) (hx : x = x')
    (hy : y = y') : Shows oldLines newLines width x' y' changes first s := hx ▸ hy ▸ h

/-- An unchanged component, whichever of its lines are shown. -/
theorem Shows.contextPart (h : Shows oldLines newLines width x y changes first s) (hold : raw <+: oldLines.drop x)
    (hnew : raw <+: newLines.drop y) (context : Nat) (nextIsChange : Bool) :
    Shows oldLines newLines width (x + raw.length) (y + raw.length) changes first
      (contextPart context width nextIsChange raw s) := by
  have hold' (k : Nat) : raw.take k <+: oldLines.drop x := (List.take_prefix k raw).trans hold
  have hnew' (k : Nat) : raw.take k <+: newLines.drop y := (List.take_prefix k raw).trans hnew
  have htake : (raw.take context).length = min context raw.length := List.length_take
  have hdrop (k : Nat) : (raw.drop k).length = raw.length - k := List.length_drop
  unfold JsDiff.contextPart
  split
  · split
    · exact h.context hold hnew
    · -- the first lines are shown, some are skipped, and the last ones are shown
      have hlast := hdrop (raw.length - context)
      have hskipped : Shows oldLines newLines width (x + (raw.length - context)) (y + (raw.length - context)) changes
          first _ := ((h.context (hold' context) (hnew' context)).skip
        (raw.length - (raw.take context).length - (raw.drop (raw.length - context)).length)).at_lines
          (by omega) (by omega)
      exact (hskipped.context (prefix_drop_drop hold (by omega)) (prefix_drop_drop hnew (by omega))).at_lines
        (by omega) (by omega)
  · split
    · exact ((h.context (hold' context) (hnew' context)).skip_if (raw.length - (raw.take context).length)).at_lines
        (by omega) (by omega)
    · split
      · have hlast := hdrop (raw.length - context)
        exact ((h.skip_if (raw.length - context)).context (prefix_drop_drop hold (by omega))
          (prefix_drop_drop hnew (by omega))).at_lines (by omega) (by omega)
      · have holdNum := h.oldNum
        have hnewNum := h.newNum
        exact ⟨h.output, by simp only []; omega, by simp only []; omega, h.firstChanged⟩

end steps

/-! ## The whole run -/

/-- The changes of the line diff, with their numbers, where `x` and `y` lines are done. -/
def changes : Nat → Nat → List (Component Text) → List Entry
  | _, _, [] => []
  | x, y, c :: cs =>
    let raw := c.tokens.map (content 10)
    if c.added then numbered .added (y + 1) raw ++ changes x (y + raw.length) cs
    else if c.removed then numbered .removed (x + 1) raw ++ changes (x + raw.length) y cs
    else changes (x + raw.length) (y + raw.length) cs

/-- The number in the new text of the first change. -/
def firstChange : Nat → List (Component Text) → Option Nat
  | _, [] => none
  | y, c :: cs => if c.isChange then some (y + 1) else firstChange (y + c.tokens.length) cs

/-- The lines of a text, without their endings. -/
def textLines (text : Text) : List Text := (lines 10 text).map (content 10)

/-- The lines of a component, without their endings. -/
theorem rawLines_value {old new : Text} {c : Component Text} (h : c ∈ diffLines old new) :
    rawLines c.value = c.tokens.map (content 10) := by
  have hne := (diffLines_isDiff old new).nonempty c h
  rw [rawLines, Component.value]
  obtain ⟨hparts, -⟩ | ⟨front, l, hls, hl, hlast, hparts, -⟩ := (isLines_tokens h).splitOn_flatten
  · rw [hparts]
    simp
  · have hcontent : content 10 l = l := TerminatedLines.content_of_not_mem hlast
    rw [hparts, hls, List.map_append, List.map_singleton, hcontent]
    simp [hl]

/-- The whole run shows the changes of the components, and finds the first. -/
theorem displayLoop_shows {oldLines newLines : List Text} {width : Nat} (context : Nat)
    {cs : List (Component Text)} (hraw : ∀ c ∈ cs, rawLines c.value = c.tokens.map (content 10))
    (hexclusive : ∀ c ∈ cs, ¬(c.added = true ∧ c.removed = true)) {x y : Nat} {before : List Entry}
    {first : Option Nat} {s : DisplayState} (h : Shows oldLines newLines width x y before first s)
    (hold : (oldTokens cs).map (content 10) = oldLines.drop x)
    (hnew : (newTokens cs).map (content 10) = newLines.drop y) :
    ∃ x' y', Shows oldLines newLines width x' y' (before ++ changes x y cs) (first.or (firstChange y cs))
      (displayLoop context width cs s) := by
  induction cs generalizing x y before first s with
  | nil => exact ⟨x, y, by simpa [changes, firstChange, displayLoop] using h⟩
  | cons c cs ih =>
    obtain ⟨hc, hraw⟩ := List.forall_mem_cons.1 hraw
    obtain ⟨hck, hexclusive⟩ := List.forall_mem_cons.1 hexclusive
    have hlength : (c.tokens.map (content 10)).length = c.tokens.length := List.length_map _
    -- what is behind a component on a side that has its lines
    have hside {tokens : List Text} {lines : List Text} {k : Nat}
        (hlines : (c.tokens ++ tokens).map (content 10) = lines.drop k) :
        c.tokens.map (content 10) <+: lines.drop k ∧
          tokens.map (content 10) = lines.drop (k + (c.tokens.map (content 10)).length) := by
      rw [List.map_append] at hlines
      exact ⟨⟨_, hlines⟩, by rw [← List.drop_drop, ← hlines, List.drop_left]⟩
    have hstart : Shows oldLines newLines width x y before (first.or (some (y + 1)))
        { s with firstChanged := s.firstChanged.or (some s.newNum) } :=
      ⟨h.output, h.oldNum, h.newNum, by rw [h.firstChanged, h.newNum]⟩
    have hend {x y : Nat} {entries : List Entry} {first : Option Nat} {s : DisplayState}
        (h : Shows oldLines newLines width x y entries first s) (last : Bool) :
        Shows oldLines newLines width x y entries first { s with lastWasChange := last } :=
      ⟨h.output, h.oldNum, h.newNum, h.firstChanged⟩
    rw [displayLoop, hc, changes, firstChange]
    cases ha : c.added with
    | true =>
      have hr : c.removed = false := by simpa [ha] using hck
      have hchange : c.isChange = true := by simp [Component.isChange, ha]
      obtain ⟨hfront, hnew⟩ := hside (by simpa [newTokens, hr] using hnew)
      have hold : (oldTokens cs).map (content 10) = oldLines.drop x := by simpa [oldTokens, ha] using hold
      obtain ⟨x', y', hshows⟩ := ih hraw hexclusive (hend (hstart.added hfront) true) hold hnew
      refine ⟨x', y', ?_⟩
      rw [if_pos hchange, if_pos hchange, if_pos rfl, ← List.append_assoc]
      simpa [Option.or_assoc] using hshows
    | false =>
      cases hr : c.removed with
      | true =>
        have hchange : c.isChange = true := by simp [Component.isChange, hr]
        obtain ⟨hfront, hold⟩ := hside (by simpa [oldTokens, ha] using hold)
        have hnew : (newTokens cs).map (content 10) = newLines.drop y := by simpa [newTokens, hr] using hnew
        obtain ⟨x', y', hshows⟩ := ih hraw hexclusive (hend (hstart.removed hfront) true) hold hnew
        refine ⟨x', y', ?_⟩
        rw [if_pos hchange, if_pos hchange, if_neg (by decide), if_pos rfl, ← List.append_assoc]
        simpa [Option.or_assoc] using hshows
      | false =>
        have hchange : ¬c.isChange = true := by simp [Component.isChange, ha, hr]
        obtain ⟨hfrontOld, hold⟩ := hside (by simpa [oldTokens, ha] using hold)
        obtain ⟨hfrontNew, hnew⟩ := hside (by simpa [newTokens, hr] using hnew)
        obtain ⟨x', y', hshows⟩ := ih hraw hexclusive
          (hend (h.contextPart hfrontOld hfrontNew context (cs.head?.any Component.isChange)) false) hold hnew
        refine ⟨x', y', ?_⟩
        rw [if_neg hchange, if_neg hchange, if_neg (by decide), if_neg (by decide), ← hlength]
        exact hshows

/-! ## The first change -/

/-- Behind components that are not changes is the first change. -/
theorem firstChange_append {front : List (Component Text)} (hfront : ∀ c ∈ front, c.isChange = false)
    {c : Component Text} (hc : c.isChange = true) (back : List (Component Text)) (y : Nat) :
    firstChange y (front ++ c :: back) = some (y + (newTokens front).length + 1) := by
  induction front generalizing y with
  | nil => exact if_pos hc
  | cons d front ih =>
    obtain ⟨hd, hfront⟩ := List.forall_mem_cons.1 hfront
    have hr : d.removed = false := (Bool.or_eq_false_iff.1 hd).2
    have htokens : newTokens (d :: front) = d.tokens ++ newTokens front := by simp [newTokens, hr]
    rw [List.cons_append, firstChange, if_neg (by rw [hd]; decide), ih hfront, htokens, List.length_append,
      Nat.add_assoc y]

/-- There is none exactly where no component is a change. -/
theorem firstChange_eq_none {cs : List (Component Text)} {y : Nat} :
    firstChange y cs = none ↔ ∀ c ∈ cs, c.isChange = false := by
  induction cs generalizing y with
  | nil => simp [firstChange]
  | cons c cs ih =>
    rw [firstChange, List.forall_mem_cons]
    cases hc : c.isChange with
    | true => simp
    | false => simpa using ih

/-- No component is a change exactly where the lines are the same. -/
theorem unchanged_iff (old new : Text) :
    (∀ c ∈ diffLines old new, c.isChange = false) ↔ lines 10 old = lines 10 new := by
  have hdiff := diffLines_isDiff old new
  constructor
  · intro hsame
    have hall {part : Component Text → Bool} (hpart : ∀ c ∈ diffLines old new, part c = true) :
        (diffLines old new).filter part = diffLines old new := List.filter_eq_self.2 hpart
    have hold : oldTokens (diffLines old new) = newTokens (diffLines old new) := by
      rw [oldTokens, newTokens, hall fun c hc => by simpa using (Bool.or_eq_false_iff.1 (hsame c hc)).1,
        hall fun c hc => by simpa using (Bool.or_eq_false_iff.1 (hsame c hc)).2]
    rw [← hdiff.oldTokens, hold, hdiff.newTokens]
  · intro hlines c hc
    -- keeping every line takes no edit, and no diff is shorter than the line diff
    have hkeep (ls : List Text) : EditScript.Reaches ls ls 0 ls.length ls.length := by
      have hrun : EditScript.Reaches ls ls 0 (0 + ls.length) (0 + ls.length) :=
        EditScript.Reaches.start.keeps fun i hi => ⟨ls[i], by simp, by simp⟩
      simpa using hrun
    have hleast := (diffTokens_isDiff (lines 10 old) (lines 10 new)).2.2 0 (hlines ▸ hkeep (lines 10 old))
    have hzero : editCount (diffLines old new) = 0 := by
      rw [diffLines_eq]
      omega
    by_contra hchange
    rw [Bool.not_eq_false] at hchange
    have htokens := List.flatMap_eq_nil_iff.1 (List.length_eq_zero_iff.1 hzero) c (List.mem_filter.2 ⟨hc, hchange⟩)
    exact hdiff.nonempty c hc htokens

/-! ## The diff -/

/-- What holds of the lines of two texts shows no line ending. -/
theorem Entry.Holds.not_mem_line {old new : Text} {e : Entry} (h : e.Holds (textLines old) (textLines new)) :
    10 ∉ e.line := by
  have hline {text line : Text} {i : Nat} (hline : (textLines text)[i]? = some line) : 10 ∉ line := by
    obtain ⟨l, hl, rfl⟩ := List.mem_map.1 (List.mem_of_getElem? hline)
    exact TerminatedLines.not_mem_content (TerminatedLines.lines_isLines text) l hl
  cases e with
  | context n line => exact hline h.2.1
  | removed n line => exact hline h.2
  | added n line => exact hline h.2
  | ellipsis => exact List.not_mem_nil

/-- The lines of the diff are those put out, if there are any. -/
theorem splitOn_render {old new : Text} (width : Nat) {entries : List Entry}
    (hholds : ∀ e ∈ entries, e.Holds (textLines old) (textLines new)) :
    (List.intercalate [10] (entries.map (render width))).splitOn 10 =
      if entries = [] then [[]] else entries.map (render width) := by
  split
  · rename_i hnil
    rw [hnil]
    rfl
  · rename_i hne
    refine List.splitOn_intercalate 10 (fun line hline => ?_) (by simpa using hne)
    obtain ⟨e, he, rfl⟩ := List.mem_map.1 hline
    exact not_mem_render (hholds e he).not_mem_line

/-- Every line of the diff has the number of the line it shows, all changes are shown in their order, and
the first changed line is the number of the first of them. -/
theorem generateDiffString_numbers (old new : Text) (context : Nat) :
    let text := (generateDiffString old new context).1
    let firstChanged := (generateDiffString old new context).2
    let width := numberWidth old new
    (∀ n line, render width (.removed n line) ∈ text.splitOn 10 → 0 < n ∧ (textLines old)[n - 1]? = some line) ∧
    (∀ n line, render width (.added n line) ∈ text.splitOn 10 → 0 < n ∧ (textLines new)[n - 1]? = some line) ∧
    (∀ n line, render width (.context n line) ∈ text.splitOn 10 →
      0 < n ∧ (textLines old)[n - 1]? = some line ∧ line ∈ textLines new) ∧
    ((text.splitOn 10).filter fun line => line.head? == some 43 || line.head? == some 45) =
      (changes 0 0 (diffLines old new)).map (render width) ∧
    (∀ front c back, diffLines old new = front ++ c :: back → (∀ d ∈ front, d.isChange = false) →
      c.isChange = true → firstChanged = some ((newTokens front).length + 1)) ∧
    (firstChanged = none ↔ tokenizeLines old = tokenizeLines new) := by
  intro text firstChanged width
  have hdiff := diffLines_isDiff old new
  have hstart : Shows (textLines old) (textLines new) width 0 0 [] none {} :=
    ⟨⟨[], rfl, fun e he => absurd he List.not_mem_nil, rfl⟩, rfl, rfl, rfl⟩
  obtain ⟨x, y, hshows⟩ := displayLoop_shows context (fun c hc => rawLines_value hc) hdiff.exclusive hstart
    (by rw [hdiff.oldTokens]; rfl) (by rw [hdiff.newTokens]; rfl)
  obtain ⟨entries, houtput, hholds, hchanges⟩ := hshows.output
  have hfirst : firstChanged = firstChange 0 (diffLines old new) := hshows.firstChanged
  have htext : text.splitOn 10 = if entries = [] then [[]] else entries.map (render width) := by
    have htext : text = List.intercalate [10] (entries.map (render width)) := by rw [← houtput]; rfl
    rw [htext, splitOn_render width hholds]
  -- what a line says was put out
  have hmem {e : Entry} (he : render width e ∈ text.splitOn 10) : e.Holds (textLines old) (textLines new) := by
    rw [htext] at he
    split at he
    · cases e <;> exact absurd (List.mem_singleton.1 he) (List.cons_ne_nil _ _)
    · obtain ⟨e', he', heq⟩ := List.mem_map.1 he
      exact render_inj heq ▸ hholds e' he'
  refine ⟨fun n line h => hmem h, fun n line h => hmem h, fun n line h => hmem h, ?_,
    fun front c back heq hfront hc => ?_, ?_⟩
  · rw [List.nil_append] at hchanges
    rw [htext, ← hchanges]
    split
    · rename_i hnil
      rw [hnil]
      rfl
    · rw [List.filter_map]
      congr 2
      funext e
      exact (isChange_render width e).symm
  · rw [hfirst, heq, firstChange_append hfront hc, Nat.zero_add]
  · rw [hfirst, firstChange_eq_none, unchanged_iff, tokenizeLines_eq, tokenizeLines_eq]

end JsDiff

end MinionAgent
