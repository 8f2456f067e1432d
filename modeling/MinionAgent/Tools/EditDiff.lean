import MinionAgent.Library.Splice
import MinionAgent.Tools.EditText
import Mathlib.Data.List.Sort

/-!
# MinionAgent.Tools.EditDiff

The edits of a file in Python (`tools/builtin/edit_diff.py`): what they match,
in the text or in its normal form, and what replaces it.

* `applyEdits_eq_ok` — when the edits of a text succeed, and with which text;
* `regionOf_spec` — the region that an edit matches;
* `sorted_eq` — the regions do not depend on the order of the edits.
-/

namespace MinionAgent

namespace Edit

open Splice (Region)

/-! ## Lines -/

/-- `_lines_with_endings`. -/
def linesWithEndings : Units → List Units
  | [] => []
  | u :: content =>
    if u = 10 then [10] :: linesWithEndings content
    else
      match linesWithEndings content with
      | [] => [[u]]
      | line :: lines => (u :: line) :: lines

/-- `_line_spans`, from an offset on. -/
def lineSpans (offset : Nat) : List Units → List (Nat × Nat)
  | [] => []
  | line :: lines => (offset, offset + line.length) :: lineSpans (offset + line.length) lines

/-! ## Matches -/

/-- `_Match`, when it is found. -/
structure Match where
  index : Nat
  length : Nat
  usedFuzzy : Bool

/-- `Replacement`. -/
structure Replacement extends Region UInt16 where
  editIndex : Nat

/-- `BuiltinToolError` of an edit. -/
inductive EditError
  | emptyOldText (i n : Nat)
  | notFound (i n : Nat)
  | duplicate (i n : Nat) (occurrences : Int)
  | overlap (previous current : Nat)
  | internalRange
  | internalLineCount
  | noChange (n : Nat)
  deriving DecidableEq

/-- The text of an error. -/
def EditError.message (path : String) : EditError → String
  | emptyOldText i n =>
    if n = 1 then s!"oldText must not be empty in {path}." else s!"edits[{i}].oldText must not be empty in {path}."
  | notFound i n =>
    if n = 1 then
      s!"Could not find the exact text in {path}. The old text must match exactly " ++
        "including all whitespace and newlines."
    else
      s!"Could not find edits[{i}] in {path}. The oldText must match exactly including all " ++
        "whitespace and newlines."
  | duplicate i n occurrences =>
    if n = 1 then
      s!"Found {occurrences} occurrences of the text in {path}. The text must be unique. " ++
        "Please provide more context to make it unique."
    else
      s!"Found {occurrences} occurrences of edits[{i}] in {path}. Each oldText must be unique. " ++
        "Please provide more context to make it unique."
  | overlap previous current =>
    s!"edits[{previous}] and edits[{current}] overlap in {path}. " ++
      "Merge them into one edit or target disjoint regions."
  | internalRange => "Replacement range is outside the base content."
  | internalLineCount => "Cannot preserve unchanged lines because the base content has a different line count."
  | noChange n =>
    if n = 1 then
      s!"No changes made to {path}. The replacement produced identical content. This might " ++
        "indicate an issue with special characters or the text not existing as expected."
    else s!"No changes made to {path}. The replacements produced identical content."

section

variable (nfkc : Units → Units)

/-- `fuzzy_find`. -/
def fuzzyFind (content old : Units) : Option Match :=
  match Occurrences.find old content with
  | some exact => some { index := exact, length := old.length, usedFuzzy := false }
  | none =>
    let fuzzyOld := fuzzyNormalize nfkc old
    (Occurrences.find fuzzyOld (fuzzyNormalize nfkc content)).map fun index =>
      { index, length := fuzzyOld.length, usedFuzzy := true }

/-- `count_occurrences`. -/
def countOccurrences (content old : Units) : Int :=
  let fuzzyContent := fuzzyNormalize nfkc content
  let fuzzyOld := fuzzyNormalize nfkc old
  if fuzzyOld = [] then fuzzyContent.length - 1 else Occurrences.count fuzzyOld fuzzyContent

/-- `apply_replacements`. -/
def applyReplacements (content : Units) (replacements : List (Region UInt16)) (offset : Nat) : Units :=
  Splice.spliceAll offset replacements content

/-! ## Unchanged lines -/

/-- The walk to the line in which a replacement ends. -/
def endLine (stop : Nat) : Nat → List (Nat × Nat) → Nat
  | line, [] => line
  | line, span :: spans => if span.2 < stop then endLine stop (line + 1) spans else line

/-- `_replacement_line_range`; `none` is a range outside the base. -/
def replacementLineRange (spans : List (Nat × Nat)) (r : Region UInt16) : Option (Nat × Nat) :=
  match spans.findIdx? fun span => decide (span.1 ≤ r.start ∧ r.start < span.2) with
  | none => none
  | some startLine =>
    let endLine := endLine r.stop startLine (spans.drop startLine)
    if endLine ≥ spans.length then none else some (startLine, endLine + 1)

/-- `_Group`. -/
structure Group where
  startLine : Nat
  endLine : Nat
  replacements : List (Region UInt16)

/-- The groups of `preserve_unchanged_lines`, the last one being open. -/
def grouped (lineRange : Region UInt16 → Option (Nat × Nat)) : Option Group → List (Region UInt16) → Option (List Group)
  | last, [] => some last.toList
  | last, r :: replacements =>
    match lineRange r with
    | none => none
    | some (startLine, endLine) =>
      match last with
      | none => grouped lineRange (some ⟨startLine, endLine, [r]⟩) replacements
      | some group =>
        if startLine < group.endLine then
          grouped lineRange
            (some ⟨group.startLine, max group.endLine endLine, group.replacements ++ [r]⟩) replacements
        else (grouped lineRange (some ⟨startLine, endLine, [r]⟩) replacements).map (group :: ·)

/-- The lines from `index` on, with the groups spliced. -/
def spliceGroups (originalLines : List Units) (spans : List (Nat × Nat)) (base : Units) : Nat → List Group → Units
  | index, [] => (originalLines.drop index).flatten
  | index, group :: groups =>
    let groupStart := (spans[group.startLine]?.map Prod.fst).getD 0
    let groupEnd := (spans[group.endLine - 1]?.map Prod.snd).getD 0
    ((originalLines.take group.startLine).drop index).flatten ++
      (applyReplacements ((base.take groupEnd).drop groupStart) group.replacements groupStart ++
        spliceGroups originalLines spans base group.endLine groups)

/-- Replacements in the order of their places, those at one place as they were. -/
def sorted (replacements : List (Region UInt16)) : List (Region UInt16) :=
  replacements.insertionSort fun r r' => r.start ≤ r'.start

/-- `preserve_unchanged_lines`. -/
def preserveUnchangedLines (original base : Units) (replacements : List (Region UInt16)) : Except EditError Units :=
  let originalLines := linesWithEndings original
  let spans := lineSpans 0 (linesWithEndings base)
  if originalLines.length ≠ spans.length then .error .internalLineCount
  else
    match grouped (replacementLineRange spans) none (sorted replacements) with
    | none => .error .internalRange
    | some groups => .ok (spliceGroups originalLines spans base 0 groups)

/-! ## Edits -/

/-- The first edit without an old text. -/
def checkOldTexts (n : Nat) : Nat → List (Units × Units) → Except EditError Unit
  | _, [] => .ok ()
  | i, edit :: edits => if edit.1 = [] then .error (.emptyOldText i n) else checkOldTexts n (i + 1) edits

/-- The replacements of the edits of a base. -/
def matchEdits (base : Units) (n : Nat) : Nat → List (Units × Units) → Except EditError (List Replacement)
  | _, [] => .ok []
  | i, (old, new) :: edits =>
    match fuzzyFind nfkc base old with
    | none => .error (.notFound i n)
    | some found =>
      let occurrences := countOccurrences nfkc base old
      if occurrences > 1 then .error (.duplicate i n occurrences)
      else
        match matchEdits base n (i + 1) edits with
        | .error e => .error e
        | .ok matched =>
          .ok ({ start := found.index, length := found.length, new := new, editIndex := i } :: matched)

/-- The first two replacements one after another that overlap. -/
def checkOverlaps : List Replacement → Except EditError Unit
  | previous :: current :: matched =>
    if previous.start + previous.length > current.start then .error (.overlap previous.editIndex current.editIndex)
    else checkOverlaps (current :: matched)
  | _ => .ok ()

/-- The edits with their line endings normalized. -/
def normalizedEdits (edits : List (Units × Units)) : List (Units × Units) :=
  edits.map fun edit => (normalizeToLf edit.1, normalizeToLf edit.2)

/-- An edit matches in the normal form only. -/
def usesFuzzy (normalized : Units) (edits : List (Units × Units)) : Bool :=
  edits.any fun edit => ((fuzzyFind nfkc normalized edit.1).map Match.usedFuzzy).getD false

/-- The text in which the edits are matched. -/
def baseOf (normalized : Units) (edits : List (Units × Units)) : Units :=
  if usesFuzzy nfkc normalized edits then fuzzyNormalize nfkc normalized else normalized

/-- The new content, of the replacements in order. -/
def newContent (normalized : Units) (edits : List (Units × Units)) (matched : List (Region UInt16)) :
    Except EditError Units :=
  if usesFuzzy nfkc normalized edits then preserveUnchangedLines normalized (baseOf nfkc normalized edits) matched
  else .ok (applyReplacements (baseOf nfkc normalized edits) matched 0)

/-- `apply_edits`. -/
def applyEdits (normalized : Units) (edits : List (Units × Units)) : Except EditError (Units × Units) :=
  let n := edits.length
  let edits := normalizedEdits edits
  match checkOldTexts n 0 edits with
  | .error e => .error e
  | .ok () =>
    match matchEdits nfkc (baseOf nfkc normalized edits) n 0 edits with
    | .error e => .error e
    | .ok matched =>
      let matched := matched.insertionSort fun r r' => r.start ≤ r'.start
      match checkOverlaps matched with
      | .error e => .error e
      | .ok () =>
        match newContent nfkc normalized edits (matched.map Replacement.toRegion) with
        | .error e => .error e
        | .ok content => if content = normalized then .error (.noChange n) else .ok (normalized, content)

/-! ## When edits succeed -/

/-- The region that an edit of a base matches, when it does. -/
def regionOf (base : Units) (edit : Units × Units) : Option (Region UInt16) :=
  match fuzzyFind nfkc base edit.1 with
  | none => none
  | some found =>
    if countOccurrences nfkc base edit.1 > 1 then none
    else some { start := found.index, length := found.length, new := edit.2 }

/-- The regions of edits, in order. -/
def regionsOf (base : Units) (edits : List (Units × Units)) : List (Region UInt16) :=
  sorted (edits.filterMap (regionOf nfkc base))

variable {edits : List (Units × Units)} {normalized : Units}

theorem checkOldTexts_eq_ok {n i : Nat} : checkOldTexts n i edits = .ok () ↔ ∀ edit ∈ edits, edit.1 ≠ [] := by
  induction edits generalizing i with
  | nil => simp [checkOldTexts]
  | cons edit edits ih =>
    rw [checkOldTexts, List.forall_mem_cons, ← @ih (i + 1)]
    split
    · next hempty => simp [hempty]
    · next hne => simp [hne]

/-- The replacements of edits that all match. -/
theorem matchEdits_eq_ok {base : Units} {n i : Nat} :
    (∀ matched, matchEdits nfkc base n i edits = .ok matched →
      matched.map Replacement.toRegion = edits.filterMap (regionOf nfkc base)) ∧
      ((∃ matched, matchEdits nfkc base n i edits = .ok matched) ↔
        ∀ edit ∈ edits, (regionOf nfkc base edit).isSome) := by
  induction edits generalizing i with
  | nil => simp [matchEdits]
  | cons edit edits ih =>
    obtain ⟨old, new⟩ := edit
    rw [matchEdits, List.forall_mem_cons, ← (@ih (i + 1)).2, List.filterMap_cons, regionOf]
    cases hfind : fuzzyFind nfkc base old with
    | none => simp
    | some found =>
      by_cases hcount : countOccurrences nfkc base old > 1
      · simp [hcount]
      · have hmap := (@ih (i + 1)).1
        cases hrest : matchEdits nfkc base n (i + 1) edits with
        | error e => simp [hcount]
        | ok matched => simp [hcount, hmap matched hrest]

/-- In the order of their places, they are the regions of the edits. -/
theorem toRegion_sorted {base : Units} {n i : Nat} {matched : List Replacement}
    (h : matchEdits nfkc base n i edits = .ok matched) :
    (matched.insertionSort fun r r' => r.start ≤ r'.start).map Replacement.toRegion = regionsOf nfkc base edits := by
  rw [regionsOf, ← (matchEdits_eq_ok nfkc).1 matched h, sorted]
  exact List.map_insertionSort _ _ _ _ fun _ _ _ _ => Iff.rfl

theorem checkOverlaps_eq_ok {matched : List Replacement} :
    checkOverlaps matched = .ok () ↔
      (matched.map Replacement.toRegion).IsChain fun r r' => r.stop ≤ r'.start := by
  induction matched with
  | nil => simp [checkOverlaps]
  | cons previous matched ih =>
    cases matched with
    | nil => simp [checkOverlaps]
    | cons current matched =>
      rw [checkOverlaps, List.map_cons, List.map_cons, List.isChain_cons_cons, ← List.map_cons, ← ih, Region.stop]
      split
      · next hover => simp; omega
      · next hover => simp; omega

/-- Edits succeed just when none has an empty old text, all match, their regions
do not overlap, and the content is another one. -/
theorem applyEdits_eq_ok {result : Units × Units} :
    applyEdits nfkc normalized edits = .ok result ↔
      (∀ edit ∈ normalizedEdits edits, edit.1 ≠ []) ∧
        (∀ edit ∈ normalizedEdits edits,
          (regionOf nfkc (baseOf nfkc normalized (normalizedEdits edits)) edit).isSome) ∧
        (regionsOf nfkc (baseOf nfkc normalized (normalizedEdits edits)) (normalizedEdits edits)).IsChain
          (fun r r' => r.stop ≤ r'.start) ∧
        newContent nfkc normalized (normalizedEdits edits)
          (regionsOf nfkc (baseOf nfkc normalized (normalizedEdits edits)) (normalizedEdits edits)) = .ok result.2 ∧
        result.1 = normalized ∧ result.2 ≠ normalized := by
  have holdTexts := @checkOldTexts_eq_ok (normalizedEdits edits) edits.length 0
  obtain ⟨_, hmatches⟩ := @matchEdits_eq_ok nfkc (normalizedEdits edits)
    (baseOf nfkc normalized (normalizedEdits edits)) edits.length 0
  rw [← holdTexts, ← hmatches, applyEdits]
  cases hold : checkOldTexts edits.length 0 (normalizedEdits edits) with
  | error e => simp
  | ok =>
    cases hmatch : matchEdits nfkc (baseOf nfkc normalized (normalizedEdits edits)) edits.length 0
        (normalizedEdits edits) with
    | error e => simp
    | ok matched =>
      have hsorted := toRegion_sorted nfkc hmatch
      have hoverlaps := @checkOverlaps_eq_ok (matched.insertionSort fun r r' => r.start ≤ r'.start)
      rw [hsorted] at hoverlaps
      rw [← hoverlaps]
      cases hoverlap : checkOverlaps (matched.insertionSort fun r r' => r.start ≤ r'.start) with
      | error e => simp [hoverlap]
      | ok =>
        obtain ⟨before, after⟩ := result
        simp only [hoverlap, hsorted]
        cases newContent nfkc normalized (normalizedEdits edits)
            (regionsOf nfkc (baseOf nfkc normalized (normalizedEdits edits)) (normalizedEdits edits)) with
        | error e => simp
        | ok content =>
          by_cases hsame : content = normalized
          · simp only [hsame, if_true]
            grind
          · simp only [hsame, if_false]
            grind

/-- The region of an edit: its old text where it occurs first, or its normal form
where that does. -/
theorem regionOf_eq_some {base : Units} {edit : Units × Units} {r : Region UInt16} :
    regionOf nfkc base edit = some r ↔
      (Occurrences.find edit.1 base = some r.start ∧ r.length = edit.1.length ∨
        Occurrences.find edit.1 base = none ∧
          Occurrences.find (fuzzyNormalize nfkc edit.1) (fuzzyNormalize nfkc base) = some r.start ∧
          r.length = (fuzzyNormalize nfkc edit.1).length) ∧
        countOccurrences nfkc base edit.1 ≤ 1 ∧ r.new = edit.2 := by
  obtain ⟨start, length, new⟩ := r
  rw [regionOf, fuzzyFind]
  cases Occurrences.find edit.1 base with
  | some index =>
    simp only [reduceCtorEq, false_and, or_false, Option.some.injEq]
    split <;> grind
  | none =>
    cases hfuzzy : Occurrences.find (fuzzyNormalize nfkc edit.1) (fuzzyNormalize nfkc base) with
    | none => simp [hfuzzy]
    | some index =>
      simp only [hfuzzy, Option.map_some, reduceCtorEq, false_and, false_or, true_and, Option.some.injEq]
      split <;> grind

/-- Every edit of a text that is matched as it is has its old text there. -/
theorem find_of_not_usesFuzzy (h : usesFuzzy nfkc normalized edits = false) {edit : Units × Units}
    (hedit : edit ∈ edits) {r : Region UInt16} (hr : regionOf nfkc normalized edit = some r) :
    Occurrences.find edit.1 normalized = some r.start ∧ r.length = edit.1.length ∧ r.new = edit.2 := by
  obtain ⟨hexact | ⟨hnone, hfuzzy, _⟩, _, hnew⟩ := (regionOf_eq_some nfkc).mp hr
  · exact ⟨hexact.1, hexact.2, hnew⟩
  · have hany := List.any_eq_false.mp h edit hedit
    simp [fuzzyFind, hnone, hfuzzy] at hany

theorem fuzzyNormalize_baseOf (edits : List (Units × Units))
    (h : fuzzyNormalize nfkc (fuzzyNormalize nfkc normalized) = fuzzyNormalize nfkc normalized) :
    fuzzyNormalize nfkc (baseOf nfkc normalized edits) = fuzzyNormalize nfkc normalized := by
  rw [baseOf]
  split
  · exact h
  · rfl

/-- Regions lie in their base, when it is the text or a normal form. -/
theorem stop_le_of_regionOf
    (h : fuzzyNormalize nfkc (fuzzyNormalize nfkc normalized) = fuzzyNormalize nfkc normalized)
    {edit : Units × Units} (hedit : edit ∈ edits) {r : Region UInt16}
    (hr : regionOf nfkc (baseOf nfkc normalized edits) edit = some r) :
    r.stop ≤ (baseOf nfkc normalized edits).length := by
  have hstop : r.start + r.length = r.stop := rfl
  rw [baseOf] at hr ⊢
  cases hfuzzy : usesFuzzy nfkc normalized edits with
  | false =>
    rw [hfuzzy] at hr
    obtain ⟨hfind, hlength, _⟩ := find_of_not_usesFuzzy nfkc hfuzzy hedit hr
    have hle := Occurrences.find_add_length_le hfind
    simp only [Bool.false_eq_true, if_false]
    omega
  | true =>
    rw [hfuzzy] at hr
    obtain ⟨⟨hfind, hlength⟩ | ⟨_, hfind, hlength⟩, _⟩ := (regionOf_eq_some nfkc).mp hr
    · have hle := Occurrences.find_add_length_le hfind
      simp only [if_true] at hle ⊢
      omega
    · simp only [if_true, h] at hfind ⊢
      have hle := Occurrences.find_add_length_le hfind
      omega

end

/-! ## Regions in order -/

/-- No empty region begins where another one does. -/
def EmptyApart (regions : List (Region UInt16)) : Prop :=
  regions.Pairwise fun r r' => r.length = 0 ∨ r'.length = 0 → r.start ≠ r'.start

theorem sorted_perm (regions : List (Region UInt16)) : (sorted regions).Perm regions :=
  List.perm_insertionSort _ regions

theorem sorted_pairwise (regions : List (Region UInt16)) : (sorted regions).Pairwise fun r r' => r.start ≤ r'.start :=
  List.pairwise_insertionSort _ regions

/-- Regions that do not overlap begin at different places, unless one is empty. -/
theorem starts_ne {pos stop : Nat} {regions : List (Region UInt16)} (h : Splice.Ordered pos stop regions)
    (hempty : EmptyApart regions) : regions.Pairwise fun r r' => r.start ≠ r'.start := by
  induction regions generalizing pos with
  | nil => exact .nil
  | cons r regions ih =>
    obtain ⟨hr, hrest⟩ := List.pairwise_cons.mp hempty
    refine List.pairwise_cons.mpr ⟨fun r' hr' heq => ?_, ih h.2 hrest⟩
    have hle := h.2.start_le r' hr'
    have hstop : r.stop = r.start + r.length := rfl
    exact hr r' hr' (.inl (by omega)) heq

/-- Regions that begin at different places have one order. -/
theorem sorted_eq {regions regions' : List (Region UInt16)} (hperm : regions.Perm regions')
    (h : (sorted regions).Pairwise fun r r' => r.start ≠ r'.start) : sorted regions = sorted regions' := by
  have hperm' : (sorted regions).Perm (sorted regions') :=
    ((sorted_perm regions).trans hperm).trans (sorted_perm regions').symm
  refine hperm'.eq_of_pairwise (fun r r' hr hr' hle hle' => ?_) (sorted_pairwise regions) (sorted_pairwise regions')
  by_contra hne
  have hmem := hperm'.mem_iff.mpr hr'
  have : Std.Symm fun r r' : Region UInt16 => r.start ≠ r'.start := ⟨fun _ _ hsymm => hsymm.symm⟩
  exact h.forall hr hmem hne (Nat.le_antisymm hle hle')

theorem sorted_sorted (regions : List (Region UInt16)) : sorted (sorted regions) = sorted regions :=
  (sorted_pairwise regions).insertionSort_eq

/-- The regions of edits that all match and do not overlap, in their base. -/
theorem ordered_regionsOf (nfkc : Units → Units) {normalized : Units} {edits : List (Units × Units)}
    (h : fuzzyNormalize nfkc (fuzzyNormalize nfkc normalized) = fuzzyNormalize nfkc normalized)
    (hchain : (regionsOf nfkc (baseOf nfkc normalized edits) edits).IsChain fun r r' => r.stop ≤ r'.start) :
    Splice.Ordered 0 (baseOf nfkc normalized edits).length (regionsOf nfkc (baseOf nfkc normalized edits) edits) := by
  refine Splice.ordered_of_isChain hchain (Nat.zero_le _) (fun _ _ => Nat.zero_le _) fun r hr => ?_
  obtain ⟨edit, hedit, hregion⟩ := List.mem_filterMap.mp ((sorted_perm _).mem_iff.mp hr)
  exact stop_le_of_regionOf nfkc h hedit hregion

end Edit

end MinionAgent
