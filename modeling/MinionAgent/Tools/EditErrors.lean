import MinionAgent.Tools.EditGroups

/-!
# MinionAgent.Tools.EditErrors

The two errors of an edit that blame no edit (`tools/builtin/edit_diff.py`): lines
that cannot be kept, and a range outside the base.

* `replacementLineRange_isSome` — the regions that have lines;
* `length_linesWithEndings` — how many lines a text has;
* `applyEdits_internal` — when each of the two errors is raised.
-/

namespace MinionAgent

namespace Edit

open Splice (Region)

/-- The text ends in a line without a newline. -/
def unfinished (text : Units) : Bool := text.getLast?.any (· != 10)

/-- Lines of the text are to be kept: the edits match once each, apart, and some
of them in the normal form only. -/
structure KeepsLines (nfkc : Units → Units) (normalized : Units) (edits : List (Units × Units)) : Prop where
  old : ∀ edit ∈ edits, edit.1 ≠ []
  once : ∀ edit ∈ edits, (regionOf nfkc (baseOf nfkc normalized edits) edit).isSome
  apart : (regionsOf nfkc (baseOf nfkc normalized edits) edits).IsChain fun r r' => r.stop ≤ r'.start
  fuzzy : usesFuzzy nfkc normalized edits = true

/-- A match that is no part of the base. -/
def OutsideBase (base : Units) (r : Region UInt16) : Prop := base.length ≤ r.start ∨ base.length < r.stop

/-! ## Lines -/

theorem length_linesWithEndings (text : Units) :
    (linesWithEndings text).length = text.count 10 + (unfinished text).toNat := by
  induction text with
  | nil => rfl
  | cons u text ih =>
    rw [linesWithEndings]
    split
    · next hu =>
      subst hu
      have hlast : unfinished (10 :: text) = unfinished text := by
        cases text with
        | nil => rfl
        | cons v text => rw [unfinished, unfinished, List.getLast?_cons_cons]
      rw [List.length_cons, ih, hlast, List.count_cons_self]
      omega
    · next hu =>
      rw [List.count_cons_of_ne hu]
      split
      · next hnil =>
        have htext : text = [] := by rw [← flatten_linesWithEndings text, hnil, List.flatten_nil]
        subst htext
        have hunfinished : unfinished [u] = true := by simpa [unfinished] using hu
        rw [hunfinished]
        rfl
      · next line lines hcons =>
        rw [hcons] at ih
        have hne : text ≠ [] := by
          rintro rfl
          cases hcons
        obtain ⟨v, rest, rfl⟩ := List.exists_cons_of_ne_nil hne
        rw [List.length_cons] at ih ⊢
        rw [ih, unfinished, unfinished, List.getLast?_cons_cons]

/-- Some line holds each place of a text. -/
theorem exists_line (lines : List Units) {place : Nat} (h : place < lines.flatten.length) :
    ∃ i < lines.length, lineStart lines i ≤ place ∧ place < lineStart lines (i + 1) := by
  rw [← lineStart_length] at h
  have hpast : ∃ i, place < lineStart lines (i + 1) := by
    cases hn : lines.length with
    | zero => simp [hn, lineStart] at h
    | succ n => exact ⟨n, hn ▸ h⟩
  have hspec := Nat.find_spec hpast
  have hle : Nat.find hpast < lines.length := by
    by_contra hge
    have hn : 0 < lines.length := by
      by_contra hzero
      simp [Nat.eq_zero_of_not_pos hzero, lineStart] at h
    refine Nat.find_min hpast (m := lines.length - 1) (by omega) ?_
    rwa [Nat.sub_add_cancel hn]
  refine ⟨Nat.find hpast, hle, ?_, hspec⟩
  by_contra hlt
  cases hzero : Nat.find hpast with
  | zero =>
    rw [hzero] at hlt
    simp [lineStart] at hlt
  | succ i => exact Nat.find_min hpast (m := i) (by omega) (by rw [hzero] at hlt; omega)

/-- A region has lines just when it is a part of the base. -/
theorem replacementLineRange_isSome {lines : List Units} {r : Region UInt16} :
    (replacementLineRange (lineSpans 0 lines) r).isSome ↔ ¬ OutsideBase lines.flatten r := by
  rw [OutsideBase, not_or, Nat.not_le, Nat.not_lt]
  constructor
  · intro hsome
    obtain ⟨⟨startLine, endLine⟩, hrange⟩ := Option.isSome_iff_exists.mp hsome
    have hlines := replacementLineRange_spec hrange
    have hstart := @lineStart_mono lines (startLine + 1) lines.length (by have := hlines.lt; have := hlines.le; omega)
    have hend := @lineStart_mono lines _ _ hlines.le
    have hlt := hlines.start_lt
    have hle := hlines.stop_le
    rw [lineStart_length] at hstart hend
    exact ⟨by omega, by omega⟩
  · intro ⟨hstart, hstop⟩
    obtain ⟨i, hi, hline⟩ := exists_line lines hstart
    have hspan : decide (lineStart lines i ≤ r.start ∧ r.start < lineStart lines (i + 1)) = true :=
      decide_eq_true hline
    have hfound : ((lineSpans 0 lines).findIdx? fun span => decide (span.1 ≤ r.start ∧ r.start < span.2)).isSome := by
      rw [List.findIdx?_isSome, List.any_eq_true]
      exact ⟨_, List.mem_of_getElem? (span_eq hi), hspan⟩
    obtain ⟨first, hfirst⟩ := Option.isSome_iff_exists.mp hfound
    have hlt := (List.findIdx?_eq_some_iff_getElem.mp hfirst).1
    rw [length_lineSpans] at hlt
    obtain ⟨k, _, hend, hbefore, _⟩ := endLine_spec r.stop first ((lineSpans 0 lines).drop first)
    rw [replacementLineRange, hfirst]
    simp only [hend, length_lineSpans]
    rw [if_neg, Option.isSome_some]
    -- The last line reaches to the end of the region.
    intro hge
    obtain ⟨span, hspan', hlast⟩ := hbefore (lines.length - 1 - first) (by omega)
    rw [List.getElem?_drop, Nat.add_sub_cancel' (by omega), span_eq (by omega)] at hspan'
    obtain rfl := Option.some.inj hspan'
    rw [Nat.sub_add_cancel (by omega), lineStart_length] at hlast
    omega

theorem grouped_eq_none {lineRange : Region UInt16 → Option (Nat × Nat)} {last : Option Group}
    {replacements : List (Region UInt16)} :
    grouped lineRange last replacements = none ↔ ∃ r ∈ replacements, lineRange r = none := by
  induction replacements generalizing last with
  | nil => simp [grouped]
  | cons r replacements ih =>
    rw [grouped]
    cases hrange : lineRange r with
    | none => simp [hrange]
    | some range =>
      cases last with
      | none => simp [ih, hrange]
      | some group =>
        by_cases hin : range.1 < group.endLine
        · simp [ih, hrange, hin]
        · simp [ih, hrange, hin]

/-- When lines cannot be kept. -/
theorem preserveUnchangedLines_internal {original base : Units} {replacements : List (Region UInt16)}
    (hlf : base.count 10 = original.count 10) :
    (preserveUnchangedLines original base replacements = .error .internalLineCount ↔
      unfinished original ≠ unfinished base) ∧
    (preserveUnchangedLines original base replacements = .error .internalRange ↔
      unfinished original = unfinished base ∧ ∃ r ∈ replacements, OutsideBase base r) := by
  have hlines : (linesWithEndings original).length = (linesWithEndings base).length ↔
      unfinished original = unfinished base := by
    rw [length_linesWithEndings, length_linesWithEndings, hlf, Nat.add_left_cancel_iff]
    cases unfinished original <;> cases unfinished base <;> simp
  have hgrouped : grouped (replacementLineRange (lineSpans 0 (linesWithEndings base))) none (sorted replacements) =
      none ↔ ∃ r ∈ replacements, OutsideBase base r := by
    have hoffending (r : Region UInt16) :
        replacementLineRange (lineSpans 0 (linesWithEndings base)) r = none ↔ OutsideBase base r := by
      rw [← Option.not_isSome_iff_eq_none, replacementLineRange_isSome, not_not, flatten_linesWithEndings]
    simp only [grouped_eq_none, hoffending, (sorted_perm replacements).mem_iff]
  rw [preserveUnchangedLines]
  simp only [length_lineSpans]
  by_cases hlength : (linesWithEndings original).length = (linesWithEndings base).length
  · rw [if_neg (not_not.mpr hlength), ← hgrouped]
    cases hgroups : grouped (replacementLineRange (lineSpans 0 (linesWithEndings base))) none (sorted replacements) with
    | none => simp [hlines.mp hlength]
    | some groups => simp [hlines.mp hlength]
  · have hne := mt hlines.mpr hlength
    simp [hlength, hne]

/-! ## The errors of edits -/

variable (nfkc : Units → Units)

theorem checkOldTexts_error {n i : Nat} {edits : List (Units × Units)} {e : EditError}
    (h : checkOldTexts n i edits = .error e) : ∃ j, e = .emptyOldText j n := by
  induction edits generalizing i with
  | nil => cases h
  | cons edit edits ih =>
    rw [checkOldTexts] at h
    split at h
    · exact ⟨i, (Except.error.inj h).symm⟩
    · exact ih h

theorem matchEdits_error {base : Units} {n i : Nat} {edits : List (Units × Units)} {e : EditError}
    (h : matchEdits nfkc base n i edits = .error e) :
    (∃ j, e = .notFound j n) ∨ ∃ j count, e = .duplicate j n count := by
  induction edits generalizing i with
  | nil => cases h
  | cons edit edits ih =>
    obtain ⟨old, new⟩ := edit
    rw [matchEdits] at h
    split at h
    · exact .inl ⟨i, (Except.error.inj h).symm⟩
    · simp only at h
      split at h
      · exact .inr ⟨i, _, (Except.error.inj h).symm⟩
      · split at h
        · next hrest =>
          obtain rfl := Except.error.inj h
          exact ih hrest
        · cases h

theorem checkOverlaps_error {matched : List Replacement} {e : EditError} (h : checkOverlaps matched = .error e) :
    ∃ previous current, e = .overlap previous current := by
  induction matched with
  | nil => cases h
  | cons previous matched ih =>
    cases matched with
    | nil => cases h
    | cons current matched =>
      rw [checkOverlaps] at h
      split at h
      · exact ⟨_, _, (Except.error.inj h).symm⟩
      · exact ih h

/-- An error that blames no edit comes from the lines to be kept. -/
theorem applyEdits_eq_error {normalized : Units} {edits : List (Units × Units)} {e : EditError}
    (he : e = .internalRange ∨ e = .internalLineCount) :
    applyEdits nfkc normalized edits = .error e ↔
      KeepsLines nfkc normalized (normalizedEdits edits) ∧
        preserveUnchangedLines normalized (baseOf nfkc normalized (normalizedEdits edits))
          (regionsOf nfkc (baseOf nfkc normalized (normalizedEdits edits)) (normalizedEdits edits)) = .error e := by
  have hkeeps : KeepsLines nfkc normalized (normalizedEdits edits) ↔ _ ∧ _ ∧ _ ∧ _ :=
    ⟨fun h => ⟨h.old, h.once, h.apart, h.fuzzy⟩, fun h => ⟨h.1, h.2.1, h.2.2.1, h.2.2.2⟩⟩
  obtain ⟨_, hmatches⟩ := @matchEdits_eq_ok nfkc (normalizedEdits edits)
    (baseOf nfkc normalized (normalizedEdits edits)) edits.length 0
  rw [hkeeps, ← @checkOldTexts_eq_ok (normalizedEdits edits) edits.length 0, ← hmatches, applyEdits]
  cases hold : checkOldTexts edits.length 0 (normalizedEdits edits) with
  | error e' =>
    obtain ⟨j, rfl⟩ := checkOldTexts_error hold
    rcases he with rfl | rfl <;> simp
  | ok =>
    cases hmatch : matchEdits nfkc (baseOf nfkc normalized (normalizedEdits edits)) edits.length 0
        (normalizedEdits edits) with
    | error e' =>
      obtain ⟨j, rfl⟩ | ⟨j, count, rfl⟩ := matchEdits_error nfkc hmatch <;> rcases he with rfl | rfl <;> simp
    | ok matched =>
      have hsorted := toRegion_sorted nfkc hmatch
      have hoverlaps := @checkOverlaps_eq_ok (matched.insertionSort fun r r' => r.start ≤ r'.start)
      rw [hsorted] at hoverlaps
      rw [← hoverlaps]
      cases hoverlap : checkOverlaps (matched.insertionSort fun r r' => r.start ≤ r'.start) with
      | error e' =>
        obtain ⟨previous, current, rfl⟩ := checkOverlaps_error hoverlap
        rcases he with rfl | rfl <;> simp [hoverlap]
      | ok =>
        simp only [hoverlap, hsorted, newContent]
        cases hfuzzy : usesFuzzy nfkc normalized (normalizedEdits edits) with
        | false =>
          rcases he with rfl | rfl <;> simp only [Bool.false_eq_true, if_false] <;> split <;> simp
        | true =>
          simp only [if_true]
          cases preserveUnchangedLines normalized (baseOf nfkc normalized (normalizedEdits edits))
              (regionsOf nfkc (baseOf nfkc normalized (normalizedEdits edits)) (normalizedEdits edits)) with
          | error e' => simp
          | ok content => rcases he with rfl | rfl <;> simp only <;> split <;> simp

/-- Edits that keep lines cannot where the text ends in a line without a newline
and its normal form does not, or the other way round; a range is outside the base
where an edit's match is.  Where the normal form is stable, that is an empty base. -/
theorem applyEdits_internal (hlf : ∀ text, (nfkc text).count 10 = text.count 10) (normalized : Units)
    (edits : List (Units × Units)) :
    (applyEdits nfkc normalized edits = .error .internalLineCount ↔
      KeepsLines nfkc normalized (normalizedEdits edits) ∧
        unfinished normalized ≠ unfinished (fuzzyNormalize nfkc normalized)) ∧
    (applyEdits nfkc normalized edits = .error .internalRange ↔
      KeepsLines nfkc normalized (normalizedEdits edits) ∧
        unfinished normalized = unfinished (fuzzyNormalize nfkc normalized) ∧
        ∃ edit ∈ normalizedEdits edits, ∃ r, regionOf nfkc (fuzzyNormalize nfkc normalized) edit = some r ∧
          OutsideBase (fuzzyNormalize nfkc normalized) r) ∧
    (fuzzyNormalize nfkc (fuzzyNormalize nfkc normalized) = fuzzyNormalize nfkc normalized →
      applyEdits nfkc normalized edits = .error .internalRange → fuzzyNormalize nfkc normalized = []) := by
  have hcount : (fuzzyNormalize nfkc normalized).count 10 = normalized.count 10 :=
    (count_fuzzyNormalize_id (nfkc normalized)).trans (hlf normalized)
  have hbase (hkeeps : KeepsLines nfkc normalized (normalizedEdits edits)) :
      baseOf nfkc normalized (normalizedEdits edits) = fuzzyNormalize nfkc normalized := by
    rw [baseOf, hkeeps.fuzzy, if_pos rfl]
  have hregions (hkeeps : KeepsLines nfkc normalized (normalizedEdits edits)) :
      (∃ r ∈ regionsOf nfkc (fuzzyNormalize nfkc normalized) (normalizedEdits edits),
          OutsideBase (fuzzyNormalize nfkc normalized) r) ↔
        ∃ edit ∈ normalizedEdits edits, ∃ r, regionOf nfkc (fuzzyNormalize nfkc normalized) edit = some r ∧
          OutsideBase (fuzzyNormalize nfkc normalized) r := by
    simp only [regionsOf, (sorted_perm _).mem_iff, List.mem_filterMap]
    grind
  have hlines : applyEdits nfkc normalized edits = .error .internalLineCount ↔
      KeepsLines nfkc normalized (normalizedEdits edits) ∧
        unfinished normalized ≠ unfinished (fuzzyNormalize nfkc normalized) := by
    rw [applyEdits_eq_error nfkc (.inr rfl)]
    refine and_congr_right fun hkeeps => ?_
    rw [hbase hkeeps]
    exact (preserveUnchangedLines_internal hcount).1
  have hrange : applyEdits nfkc normalized edits = .error .internalRange ↔
      KeepsLines nfkc normalized (normalizedEdits edits) ∧
        unfinished normalized = unfinished (fuzzyNormalize nfkc normalized) ∧
        ∃ edit ∈ normalizedEdits edits, ∃ r, regionOf nfkc (fuzzyNormalize nfkc normalized) edit = some r ∧
          OutsideBase (fuzzyNormalize nfkc normalized) r := by
    rw [applyEdits_eq_error nfkc (.inl rfl)]
    refine and_congr_right fun hkeeps => ?_
    rw [hbase hkeeps, ← hregions hkeeps]
    exact (preserveUnchangedLines_internal hcount).2
  refine ⟨hlines, hrange, fun hstable herror => ?_⟩
  obtain ⟨hkeeps, _, edit, hedit, r, hr, houtside⟩ := hrange.mp herror
  have hstop := stop_le_of_regionOf nfkc hstable hedit ((hbase hkeeps).symm ▸ hr)
  rw [hbase hkeeps] at hstop
  have hempty : r.length = 0 ∧ (fuzzyNormalize nfkc normalized).length ≤ r.start := by
    rw [OutsideBase] at houtside
    rw [Region.stop] at hstop houtside
    omega
  obtain ⟨⟨_, hlength⟩ | ⟨_, hfind, hlength⟩, _⟩ := (regionOf_eq_some nfkc).mp hr
  · exact absurd (List.length_eq_zero_iff.mp (hlength ▸ hempty.1)) (hkeeps.old edit hedit)
  · -- The old text has an empty normal form, which is found at the beginning.
    have hold : fuzzyNormalize nfkc edit.1 = [] := List.length_eq_zero_iff.mp (hlength ▸ hempty.1)
    rw [hold, Occurrences.find_of_here List.nil_prefix] at hfind
    have hstart := Option.some.inj hfind
    exact List.length_eq_zero_iff.mp (by omega)

/-- A last line of one space is lost in the normal form. -/
theorem applyEdits_internal_trimmed : applyEdits id [0x2019, 10, 32] [([39], [65])] = .error .internalLineCount :=
  (applyEdits_internal id (fun _ => rfl) [0x2019, 10, 32] [([39], [65])]).1.mpr
    ⟨⟨by decide, by decide, by decide, by decide⟩, by decide⟩

/-- What NFKC does to newlines and to ASCII. -/
structure KeepsNewlines (nfkc : Units → Units) : Prop where
  newlines : ∀ text, (nfkc text).count 10 = text.count 10
  ascii : ∀ text : Units, (∀ u ∈ text, u < 128) → nfkc text = text

/-- Both errors are raised, also where NFKC changes nothing. -/
theorem internal_errors_raised :
    (¬ ∀ nfkc, KeepsNewlines nfkc → ∀ normalized edits, normalizeToLf normalized = normalized →
      (∀ edit ∈ edits, edit.1 ≠ []) → applyEdits nfkc normalized edits ≠ .error .internalLineCount) ∧
    ¬ ∀ nfkc, KeepsNewlines nfkc → ∀ normalized edits, normalizeToLf normalized = normalized →
      (∀ edit ∈ edits, edit.1 ≠ []) → applyEdits nfkc normalized edits ≠ .error .internalRange := by
  have hid : KeepsNewlines id := ⟨fun _ => rfl, fun _ _ => rfl⟩
  exact ⟨fun h => h id hid [0x2019, 10, 32] [([39], [65])] rfl (by decide) rfl,
    fun h => h id hid [] [([32], [65])] rfl (by decide) rfl⟩

end Edit

end MinionAgent
