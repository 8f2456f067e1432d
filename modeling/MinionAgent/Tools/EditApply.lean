import MinionAgent.Library.Words
import MinionAgent.Tools.EditGroups

/-!
# MinionAgent.Tools.EditApply

The edits of a file in Rust (`tools/builtin/edit_apply.rs`), where a range that is
out of bounds panics, and what is true of the edits that succeed in both
bindings.

* `applyEditsWithBase_eq` — Rust never panics, and applies edits as Python does;
* `applyEdits_spec` — edits that succeed match at most once, are applied at
  once, and in any order.
-/

namespace MinionAgent

namespace Edit

open Splice (Region Ordered)
open Words (slice?)

namespace Rust

/-- `fuzzy_normalize_units`, of one text. -/
def fuzzyNormalizeUnits (nfkc : Units → Units) (input : Units) : Units := finishUnits (nfkc input)

/-- `index_of`. -/
def indexOf (text needle : Units) : Option Nat :=
  if needle = [] then some 0 else (Occurrences.windows needle.length text).findIdx? (· == needle)

/-- `find`. -/
def find (content old fuzzyContent fuzzyOld : Units) : Option (Nat × Nat × Bool) :=
  match indexOf content old with
  | some index => some (index, old.length, false)
  | none => (indexOf fuzzyContent fuzzyOld).map fun index => (index, fuzzyOld.length, true)

/-- `value.splice(index..index + r.length, ..)`; `none` is its panic. -/
def spliceRange (offset : Nat) (r : Region UInt16) (value : Units) : Option Units :=
  if offset ≤ r.start ∧ r.start - offset + r.length ≤ value.length then
    some (value.take (r.start - offset) ++ r.new ++ value.drop (r.start - offset + r.length))
  else none

/-- `replace`. -/
def replace (content : Units) (replacements : List (Region UInt16)) (offset : Nat) : Option Units :=
  replacements.foldr (fun r value => value.bind (spliceRange offset r)) (some content)

/-- The lines of a replacement, in `preserve`. -/
def lineRange (spans : List (Nat × Nat)) (r : Region UInt16) : Option (Nat × Nat) :=
  match spans.findIdx? fun span => decide (r.start ≥ span.1 ∧ r.start < span.2) with
  | none => none
  | some start =>
    (((spans.zipIdx.drop start).find? fun p => decide (p.1.2 ≥ r.start + r.length)).map fun p => p.2 + 1).map (start, ·)

/-- The output of `preserve`, from a line on. -/
def outputFrom (originalLines : List Units) (spans : List (Nat × Nat)) (base : Units) : Nat → List Group → Option Units
  | originalLine, [] => (slice? originalLines originalLine originalLines.length).map List.flatten
  | originalLine, group :: groups =>
    (slice? originalLines originalLine group.startLine).bind fun before =>
      (spans[group.startLine]?).bind fun first =>
        (spans[group.endLine - 1]?).bind fun last =>
          (slice? base first.1 last.2).bind fun part =>
            (replace part group.replacements first.1).bind fun value =>
              (outputFrom originalLines spans base group.endLine groups).map fun rest =>
                before.flatten ++ (value ++ rest)

/-- `preserve`. -/
def preserve (original base : Units) (replacements : List (Region UInt16)) : Option (Except EditError Units) :=
  let originalLines := linesWithEndings original
  let spans := lineSpans 0 (linesWithEndings base)
  if originalLines.length ≠ spans.length then some (.error .internalLineCount)
  else
    match grouped (lineRange spans) none replacements with
    | none => some (.error .internalRange)
    | some groups => (outputFrom originalLines spans base 0 groups).map .ok

/-- The loop that counts a normal form that is not empty. -/
def countLoop (old : Units) (hold : old ≠ []) (count : Nat) (remainder : Units) : Nat :=
  match _h : indexOf remainder old with
  | none => count
  | some index => countLoop old hold (count + 1) (remainder.drop (index + old.length))
termination_by remainder.length
decreasing_by
  rw [indexOf, if_neg hold, Occurrences.findIdx?_windows] at _h
  have hle := Occurrences.find_add_length_le _h
  have hpos := List.length_pos_iff.mpr hold
  rw [List.length_drop]
  omega

/-- The occurrences of a normal form. -/
def occurrences (countedBase old : Units) : Int :=
  if hold : old = [] then countedBase.length - 1 else countLoop old hold 0 countedBase

/-- The replacements of the edits. -/
def matchEdits (nfkc : Units → Units) (base countedBase : Units) (n : Nat) :
    Nat → List (Units × Units) → Except EditError (List Replacement)
  | _, [] => .ok []
  | i, (old, new) :: edits =>
    let fuzzyOld := fuzzyNormalizeUnits nfkc old
    match find base old countedBase fuzzyOld with
    | none => .error (.notFound i n)
    | some (index, length, _) =>
      if occurrences countedBase fuzzyOld > 1 then .error (.duplicate i n (occurrences countedBase fuzzyOld))
      else
        match matchEdits nfkc base countedBase n (i + 1) edits with
        | .error e => .error e
        | .ok matched => .ok ({ start := index, length, new, editIndex := i } :: matched)

/-- `apply_edits_with_base`; `none` is a panic. -/
def applyEditsWithBase (nfkc : Units → Units) (normalized : Units) (edits : List (Units × Units)) :
    Option (Except EditError (Units × Units)) :=
  let n := edits.length
  let edits := edits.map fun edit => (normalizeLfUnits edit.1, normalizeLfUnits edit.2)
  match checkOldTexts n 0 edits with
  | .error e => some (.error e)
  | .ok () =>
    let countedBase := fuzzyNormalizeUnits nfkc normalized
    let usedFuzzy := edits.any fun edit =>
      ((find normalized edit.1 countedBase (fuzzyNormalizeUnits nfkc edit.1)).map fun found => found.2.2).getD false
    let base := if usedFuzzy then countedBase else normalized
    match matchEdits nfkc base countedBase n 0 edits with
    | .error e => some (.error e)
    | .ok matched =>
      let matched := matched.insertionSort fun r r' => r.start ≤ r'.start
      match checkOverlaps matched with
      | .error e => some (.error e)
      | .ok () =>
        let replacements := matched.map Replacement.toRegion
        let output := if usedFuzzy then preserve normalized base replacements else (replace base replacements 0).map .ok
        output.map fun
          | .error e => .error e
          | .ok content => if content = normalized then .error (.noChange n) else .ok (normalized, content)

/-! ## The same matches -/

theorem fuzzyNormalizeUnits_eq (nfkc : Units → Units) : fuzzyNormalizeUnits nfkc = fuzzyNormalize nfkc :=
  funext fun input => finishUnits_eq (nfkc input)

theorem indexOf_eq (text needle : Units) : indexOf text needle = Occurrences.find needle text := by
  rw [indexOf]
  split
  · next hempty => rw [hempty, Occurrences.find_of_here (List.nil_prefix)]
  · exact Occurrences.findIdx?_windows

theorem countLoop_eq {old : Units} (hold : old ≠ []) (count : Nat) (remainder : Units) :
    countLoop old hold count remainder = count + Occurrences.count old remainder := by
  induction hn : remainder.length using Nat.strongRecOn generalizing count remainder with
  | _ n ih =>
    rw [countLoop]
    split
    · next hnone =>
      rw [indexOf_eq] at hnone
      rw [Occurrences.count_of_find_none hnone, Nat.add_zero]
    · next index hindex =>
      rw [indexOf_eq] at hindex
      have hle := Occurrences.find_add_length_le hindex
      have hpos := List.length_pos_iff.mpr hold
      rw [ih _ (by rw [List.length_drop]; omega) _ _ rfl, Occurrences.count_of_find hold hindex]
      omega

variable (nfkc : Units → Units)

theorem find_eq {base normalized : Units} (h : fuzzyNormalize nfkc base = fuzzyNormalize nfkc normalized)
    (old : Units) :
    find base old (fuzzyNormalizeUnits nfkc normalized) (fuzzyNormalizeUnits nfkc old) =
      (fuzzyFind nfkc base old).map fun found => (found.index, found.length, found.usedFuzzy) := by
  simp only [find, fuzzyFind, indexOf_eq, fuzzyNormalizeUnits_eq, ← h]
  cases Occurrences.find old base with
  | some index => rfl
  | none =>
    cases Occurrences.find (fuzzyNormalize nfkc old) (fuzzyNormalize nfkc base) <;> simp

theorem occurrences_eq {base normalized : Units} (h : fuzzyNormalize nfkc base = fuzzyNormalize nfkc normalized)
    (old : Units) :
    occurrences (fuzzyNormalizeUnits nfkc normalized) (fuzzyNormalizeUnits nfkc old) =
      countOccurrences nfkc base old := by
  simp only [occurrences, countOccurrences, fuzzyNormalizeUnits_eq, ← h]
  by_cases hempty : fuzzyNormalize nfkc old = []
  · simp [hempty]
  · simp [hempty, countLoop_eq]

theorem matchEdits_eq {base normalized : Units} (h : fuzzyNormalize nfkc base = fuzzyNormalize nfkc normalized)
    (n i : Nat) (edits : List (Units × Units)) :
    matchEdits nfkc base (fuzzyNormalizeUnits nfkc normalized) n i edits = Edit.matchEdits nfkc base n i edits := by
  induction edits generalizing i with
  | nil => rfl
  | cons edit edits ih =>
    obtain ⟨old, new⟩ := edit
    simp only [matchEdits, Edit.matchEdits, find_eq nfkc h, occurrences_eq nfkc h, ih]
    cases fuzzyFind nfkc base old <;> rfl

/-! ## The same output -/

/-- No replacement of a text is out of bounds. -/
theorem replace_eq {content : Units} {replacements : List (Region UInt16)} {offset : Nat}
    (h : Ordered offset (offset + content.length) replacements) :
    replace content replacements offset = some (applyReplacements content replacements offset) := by
  have hrest {pos : Nat} (hpos : offset ≤ pos) {replacements : List (Region UInt16)}
      (h : Ordered pos (offset + content.length) replacements) :
      replace content replacements offset = some (applyReplacements content replacements offset) := by
    induction replacements generalizing pos with
    | nil => rfl
    | cons r replacements ih =>
      have hstop : r.start + r.length = r.stop := rfl
      have hstart := h.1
      have hvalue := @ih r.stop (by omega) h.2
      have hcut : applyReplacements content replacements offset =
          content.take (r.stop - offset) ++ Splice.spliceAll r.stop replacements (content.drop (r.stop - offset)) :=
        Splice.spliceAll_cut (by omega) h.2.le h.2.start_le
      have hle := h.2.le
      have hlength : r.stop - offset ≤ (applyReplacements content replacements offset).length := by
        rw [hcut, List.length_append, List.length_take]
        omega
      show (replace content replacements offset).bind (spliceRange offset r) = _
      rw [hvalue, Option.bind_some, spliceRange, if_pos ⟨by omega, by omega⟩]
      rfl
  exact hrest (Nat.le_refl offset) h

theorem drop_zipIdx (spans : List (Nat × Nat)) (k n : Nat) :
    (spans.zipIdx k).drop n = (spans.drop n).zipIdx (k + n) := by
  induction spans generalizing k n with
  | nil => simp
  | cons span spans ih =>
    cases n with
    | zero => rfl
    | succ n => simp [List.zipIdx_cons, ih, Nat.add_assoc, Nat.add_comm 1]

/-- The walk to a line, or the search for it. -/
theorem find?_zipIdx (stop k : Nat) (spans : List (Nat × Nat)) :
    (((spans.zipIdx k).find? fun p => decide (p.1.2 ≥ stop)).map fun p => p.2 + 1) =
      if endLine stop k spans ≥ k + spans.length then none else some (endLine stop k spans + 1) := by
  induction spans generalizing k with
  | nil => simp [endLine]
  | cons span spans ih =>
    rw [List.zipIdx_cons, List.find?_cons, endLine]
    by_cases hlt : span.2 < stop
    · simp only [ge_iff_le, Nat.not_le.mpr hlt, decide_false, hlt, if_true]
      rw [ih, List.length_cons, Nat.add_right_comm, Nat.add_assoc]
    · simp [hlt, Nat.le_of_not_lt hlt]

theorem lineRange_eq : lineRange = replacementLineRange := by
  funext spans r
  rw [lineRange, replacementLineRange]
  simp only [ge_iff_le]
  cases hstart : spans.findIdx? fun span => decide (span.1 ≤ r.start ∧ r.start < span.2) with
  | none => rfl
  | some start =>
    obtain ⟨hlt, _⟩ := List.findIdx?_eq_some_iff_getElem.mp hstart
    have hfind := find?_zipIdx r.stop start (spans.drop start)
    have hlength : start + (spans.drop start).length = spans.length := by
      rw [List.length_drop]
      omega
    have hdrop := drop_zipIdx spans 0 start
    rw [Nat.zero_add] at hdrop
    rw [hlength, ← hdrop] at hfind
    simp only [ge_iff_le, Region.stop] at hfind
    simp only [hfind, Region.stop]
    by_cases hle : spans.length ≤ endLine (r.start + r.length) start (spans.drop start) <;> simp [hle]

/-- No group is out of bounds. -/
theorem outputFrom_eq {lines originalLines : List Units} (hlength : originalLines.length = lines.length)
    {index : Nat} (hindex : index ≤ lines.length) {groups : List Group} (h : GroupsFrom lines index groups) :
    outputFrom originalLines (lineSpans 0 lines) lines.flatten index groups =
      some (spliceGroups originalLines (lineSpans 0 lines) lines.flatten index groups) := by
  induction groups generalizing index with
  | nil =>
    rw [outputFrom, Words.slice?_eq_some (by omega) (Nat.le_refl _), List.take_length]
    rfl
  | cons g groups ih =>
    obtain ⟨hstart, hrewrites, hordered, hrest⟩ := h
    have hlt := hrewrites.lt
    have hle := hrewrites.le
    have hspan := span_eq (Nat.lt_of_lt_of_le hlt hle)
    have hspan' := @span_eq lines (g.endLine - 1) (by omega)
    rw [Nat.sub_add_cancel (by omega)] at hspan'
    have hmono := @lineStart_mono lines g.startLine g.endLine (by omega)
    have hend : lineStart lines g.endLine ≤ lines.flatten.length := lineStart_length lines ▸ lineStart_mono hle
    have hpart : lineStart lines g.startLine +
        ((lines.flatten.take (lineStart lines g.endLine)).drop (lineStart lines g.startLine)).length =
          lineStart lines g.endLine := by
      rw [List.length_drop, List.length_take]
      omega
    rw [outputFrom, Words.slice?_eq_some hstart (by omega), hspan, hspan']
    simp only [Option.bind_some, Words.slice?_eq_some hmono hend]
    rw [replace_eq (by rw [hpart]; exact hordered), ih hle hrest, spliceGroups, hspan, hspan']
    rfl

theorem preserve_eq {original base : Units} {replacements : List (Region UInt16)}
    (hordered : Ordered 0 base.length (sorted replacements)) :
    preserve original base (sorted replacements) =
      some (preserveUnchangedLines original base (sorted replacements)) := by
  rw [preserve, preserveUnchangedLines, lineRange_eq, sorted_sorted]
  simp only [length_lineSpans]
  split
  · rfl
  · next hlength =>
    rw [not_ne_iff] at hlength
    cases hgroups : grouped (replacementLineRange (lineSpans 0 (linesWithEndings base))) none (sorted replacements) with
    | none => rfl
    | some groups =>
      obtain ⟨hfrom, _⟩ := grouped_spec hordered hgroups
      have houtput := outputFrom_eq hlength (Nat.zero_le _) hfrom
      rw [flatten_linesWithEndings] at houtput
      simp only [houtput, Option.map_some]

/-- Rust applies the edits of a text as Python does, and never panics. -/
theorem applyEditsWithBase_eq {normalized : Units}
    (h : fuzzyNormalize nfkc (fuzzyNormalize nfkc normalized) = fuzzyNormalize nfkc normalized)
    (edits : List (Units × Units)) :
    applyEditsWithBase nfkc normalized edits = some (applyEdits nfkc normalized edits) := by
  have hedits : (edits.map fun edit => (normalizeLfUnits edit.1, normalizeLfUnits edit.2)) = normalizedEdits edits := by
    simp only [normalizedEdits, normalizeToLf_eq]
  have hused : ((normalizedEdits edits).any fun edit =>
      ((find normalized edit.1 (fuzzyNormalizeUnits nfkc normalized) (fuzzyNormalizeUnits nfkc edit.1)).map
        fun found => found.2.2).getD false) = usesFuzzy nfkc normalized (normalizedEdits edits) := by
    simp only [find_eq nfkc rfl, Option.map_map]
    rfl
  have hbase : (if usesFuzzy nfkc normalized (normalizedEdits edits) then fuzzyNormalizeUnits nfkc normalized
      else normalized) = baseOf nfkc normalized (normalizedEdits edits) := by
    rw [baseOf, fuzzyNormalizeUnits_eq]
  have hfuzzy := fuzzyNormalize_baseOf nfkc (normalizedEdits edits) h
  rw [applyEditsWithBase, applyEdits, hedits]
  simp only [hused, hbase, matchEdits_eq nfkc hfuzzy]
  cases checkOldTexts edits.length 0 (normalizedEdits edits) with
  | error e => rfl
  | ok =>
    cases hmatch : Edit.matchEdits nfkc (baseOf nfkc normalized (normalizedEdits edits)) edits.length 0
        (normalizedEdits edits) with
    | error e => simp
    | ok matched =>
      have hsorted := toRegion_sorted nfkc hmatch
      have hoverlaps := @checkOverlaps_eq_ok (matched.insertionSort fun r r' => r.start ≤ r'.start)
      simp only [hsorted] at hoverlaps ⊢
      cases hoverlap : checkOverlaps (matched.insertionSort fun r r' => r.start ≤ r'.start) with
      | error e => rfl
      | ok =>
        have hordered := ordered_regionsOf nfkc h (hoverlaps.mp hoverlap)
        have houtput : (if usesFuzzy nfkc normalized (normalizedEdits edits) then
            preserve normalized (baseOf nfkc normalized (normalizedEdits edits))
              (regionsOf nfkc (baseOf nfkc normalized (normalizedEdits edits)) (normalizedEdits edits))
            else (replace (baseOf nfkc normalized (normalizedEdits edits))
              (regionsOf nfkc (baseOf nfkc normalized (normalizedEdits edits)) (normalizedEdits edits)) 0).map .ok) =
            some (newContent nfkc normalized (normalizedEdits edits)
              (regionsOf nfkc (baseOf nfkc normalized (normalizedEdits edits)) (normalizedEdits edits))) := by
          rw [newContent]
          split
          · exact preserve_eq (by rw [← regionsOf]; exact hordered)
          · rw [replace_eq (by rw [Nat.zero_add]; exact hordered), Option.map_some]
        cases hnew : newContent nfkc normalized (normalizedEdits edits)
            (regionsOf nfkc (baseOf nfkc normalized (normalizedEdits edits)) (normalizedEdits edits)) with
        | error e => simp [houtput, hnew]
        | ok content => simp [houtput, hnew]

end Rust

/-! ## Edits that succeed -/

/-- An old text is found, and its normal form is counted at most once: from left
to right without overlaps, and the empty one by the length of the text. -/
structure MatchedOnce (nfkc : Units → Units) (normalized base old : Units) : Prop where
  occurs : old <:+: base ∨ fuzzyNormalize nfkc old <:+: fuzzyNormalize nfkc normalized
  once : fuzzyNormalize nfkc old ≠ [] → fuzzyNormalize nfkc old <:+: fuzzyNormalize nfkc normalized →
    Occurrences.count (fuzzyNormalize nfkc old) (fuzzyNormalize nfkc normalized) = 1
  short : fuzzyNormalize nfkc old = [] → (fuzzyNormalize nfkc normalized).length ≤ 2

/-- The old texts lie in regions that do not overlap, all of which are replaced at
once. -/
def ReplacedAtOnce (normalized : Units) (edits : List (Units × Units)) (content : Units) : Prop :=
  ∃ matched regions : List (Region UInt16),
    List.Forall₂ (fun edit r => Occurrences.find edit.1 normalized = some r.start ∧ r.length = edit.1.length ∧
      r.new = edit.2) edits matched ∧
    regions.Perm matched ∧ Ordered 0 normalized.length regions ∧ content = Splice.replaceAll 0 regions normalized

variable (nfkc : Units → Units)

/-- An edit with a region is matched once. -/
theorem matchedOnce_of_regionOf {normalized base : Units}
    (h : fuzzyNormalize nfkc base = fuzzyNormalize nfkc normalized) {edit : Units × Units} {r : Region UInt16}
    (hr : regionOf nfkc base edit = some r) : MatchedOnce nfkc normalized base edit.1 := by
  obtain ⟨hfind, hcount, _⟩ := (regionOf_eq_some nfkc).mp hr
  rw [countOccurrences] at hcount
  simp only [h] at hcount hfind
  refine ⟨?_, fun hne hoccurs => ?_, fun hempty => ?_⟩
  · rcases hfind with ⟨hexact, _⟩ | ⟨_, hfuzzy, _⟩
    · exact .inl (Occurrences.find_isSome.mp (Option.isSome_of_eq_some hexact))
    · exact .inr (Occurrences.find_isSome.mp (Option.isSome_of_eq_some hfuzzy))
  · have hpos := (Occurrences.count_pos hne).mpr hoccurs
    rw [if_neg hne] at hcount
    omega
  · rw [if_pos hempty] at hcount
    omega

/-- Edits whose old texts occur as they are. -/
theorem replacedAtOnce {normalized : Units} {edits : List (Units × Units)}
    (hexact : usesFuzzy nfkc normalized edits = false)
    (hmatch : ∀ edit ∈ edits, (regionOf nfkc normalized edit).isSome)
    (hordered : Ordered 0 normalized.length (regionsOf nfkc normalized edits)) :
    ReplacedAtOnce normalized edits (applyReplacements normalized (regionsOf nfkc normalized edits) 0) := by
  refine ⟨edits.filterMap (regionOf nfkc normalized), regionsOf nfkc normalized edits, ?_, sorted_perm _, hordered, ?_⟩
  · have hfind := fun edit hedit r => @find_of_not_usesFuzzy nfkc edits normalized hexact edit hedit r
    clear hexact hordered
    induction edits with
    | nil => exact .nil
    | cons edit edits ih =>
      obtain ⟨hfirst, hrest⟩ := List.forall_mem_cons.mp hmatch
      obtain ⟨r, hr⟩ := Option.isSome_iff_exists.mp hfirst
      rw [List.filterMap_cons, hr]
      exact .cons (hfind edit (List.mem_cons_self ..) r hr)
        (ih hrest fun edit hedit r => hfind edit (List.mem_cons_of_mem _ hedit) r)
  · rw [applyReplacements, Splice.spliceAll_eq (by rw [Nat.zero_add]; exact hordered)]

/-- Edits that succeed are matched once each, are applied at once when none needs
the normal form, succeed alike in any order when no empty region begins where
another one does, and succeed alike in Rust. -/
theorem applyEdits_spec {normalized before content : Units} {edits : List (Units × Units)}
    (h : fuzzyNormalize nfkc (fuzzyNormalize nfkc normalized) = fuzzyNormalize nfkc normalized)
    (hok : applyEdits nfkc normalized edits = .ok (before, content)) :
    (∀ edit ∈ normalizedEdits edits,
      MatchedOnce nfkc normalized (baseOf nfkc normalized (normalizedEdits edits)) edit.1) ∧
    (usesFuzzy nfkc normalized (normalizedEdits edits) = false →
      ReplacedAtOnce normalized (normalizedEdits edits) content) ∧
    (EmptyApart (regionsOf nfkc (baseOf nfkc normalized (normalizedEdits edits)) (normalizedEdits edits)) →
      ∀ others : List (Units × Units), others.Perm edits →
        applyEdits nfkc normalized others = .ok (before, content)) ∧
    Rust.applyEditsWithBase nfkc normalized edits = some (.ok (before, content)) := by
  obtain ⟨hne, hmatch, hchain, hnew, hbefore, hchanged⟩ := (applyEdits_eq_ok nfkc).mp hok
  have hordered := ordered_regionsOf nfkc h hchain
  refine ⟨fun edit hedit => ?_, fun hexact => ?_, fun hempty others hperm => ?_, ?_⟩
  · obtain ⟨r, hr⟩ := Option.isSome_iff_exists.mp (hmatch edit hedit)
    exact matchedOnce_of_regionOf nfkc (fuzzyNormalize_baseOf nfkc _ h) hr
  · have hbase : baseOf nfkc normalized (normalizedEdits edits) = normalized := by
      rw [baseOf, hexact]
      rfl
    rw [hbase] at hmatch hordered hnew
    rw [newContent, hexact, hbase] at hnew
    obtain rfl := Except.ok.inj hnew
    exact replacedAtOnce nfkc hexact hmatch hordered
  · have hperm' : (normalizedEdits others).Perm (normalizedEdits edits) := hperm.map _
    have hused : usesFuzzy nfkc normalized (normalizedEdits others) =
        usesFuzzy nfkc normalized (normalizedEdits edits) := hperm'.any_eq
    have hbase : baseOf nfkc normalized (normalizedEdits others) = baseOf nfkc normalized (normalizedEdits edits) := by
      rw [baseOf, baseOf, hused]
    have hregions : regionsOf nfkc (baseOf nfkc normalized (normalizedEdits edits)) (normalizedEdits others) =
        regionsOf nfkc (baseOf nfkc normalized (normalizedEdits edits)) (normalizedEdits edits) :=
      (sorted_eq (hperm'.symm.filterMap _) (starts_ne hordered hempty)).symm
    refine (applyEdits_eq_ok nfkc).mpr ⟨fun edit hedit => hne edit (hperm'.mem_iff.mp hedit), fun edit hedit => ?_, ?_⟩
    · rw [hbase]
      exact hmatch edit (hperm'.mem_iff.mp hedit)
    · rw [newContent, hused, hbase, hregions]
      exact ⟨hchain, hnew, hbefore, hchanged⟩
  · rw [Rust.applyEditsWithBase_eq nfkc h, hok]

/-- One edit of a word. -/
theorem applyEdits_spec_word :
    MatchedOnce id [97, 98] [97, 98] [97] ∧ ReplacedAtOnce [97, 98] [([97], [120])] [120, 98] := by
  obtain ⟨hmatched, hreplaced, _⟩ := @applyEdits_spec id [97, 98] [97, 98] [120, 98] [([97], [120])] (by decide) rfl
  exact ⟨hmatched _ (List.mem_cons_self ..), hreplaced rfl⟩

/-- An old text may overlap itself, and two empty matches stay in their order. -/
theorem overlapping_and_empty_matches :
    (∀ text, fuzzyNormalize id (fuzzyNormalize id text) = fuzzyNormalize id text) ∧
      (∀ text, (fuzzyNormalize id text).count 10 = text.count 10) ∧
      (applyEdits id [97, 97, 97] [([97, 97], [98])] = .ok ([97, 97, 97], [98, 97]) ∧
        ¬ ∃! i, fuzzyNormalize id [97, 97] <+: (fuzzyNormalize id [97, 97, 97]).drop i) ∧
      applyEdits id [97] [([32], [120]), ([9], [121])] = .ok ([97], [120, 121, 97]) ∧
      applyEdits id [97] [([9], [121]), ([32], [120])] = .ok ([97], [121, 120, 97]) := by
  refine ⟨fuzzyNormalize_id, count_fuzzyNormalize_id, ⟨rfl, ?_⟩, rfl, rfl⟩
  rintro ⟨i, _, hunique⟩
  have hzero := hunique 0 (by decide)
  have hone := hunique 1 (by decide)
  omega

end Edit

end MinionAgent
