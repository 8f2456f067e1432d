import MinionAgent.Tools.EditDiff

/-!
# MinionAgent.Tools.EditGroups

The groups of lines that replacements in the normal form of a text rewrite, and
the lines of the text that are kept.

* `replacementLineRange_spec` — the lines that a replacement touches;
* `grouped_spec` — groups are one after another, and touched throughout;
* `kept_preserveUnchangedLines` — every other line is kept.
-/

namespace MinionAgent

namespace Edit

open Splice (Region Ordered Touches Touched Preserved)

/-! ## Lines and their places -/

theorem flatten_linesWithEndings (content : Units) : (linesWithEndings content).flatten = content := by
  induction content with
  | nil => rfl
  | cons u content ih =>
    rw [linesWithEndings]
    split
    · next hu => rw [List.flatten_cons, ih, hu]; rfl
    · split
      · next hnil =>
        rw [hnil] at ih
        rw [← ih]
        rfl
      · next line lines hcons =>
        rw [hcons] at ih
        rw [← ih]
        rfl

theorem linesWithEndings_ne_nil {content : Units} : ∀ line ∈ linesWithEndings content, line ≠ [] := by
  induction content with
  | nil => simp [linesWithEndings]
  | cons u content ih =>
    rw [linesWithEndings]
    split
    · simpa using ih
    · split
      · simp
      · next line lines hcons =>
        rw [hcons] at ih
        simpa using (List.forall_mem_cons.mp ih).2

/-- Where a line begins. -/
def lineStart (lines : List Units) (i : Nat) : Nat := (lines.take i).flatten.length

variable {lines : List Units}

theorem lineStart_succ {i : Nat} (h : i < lines.length) :
    lineStart lines (i + 1) = lineStart lines i + lines[i].length := by
  rw [lineStart, lineStart, List.take_succ_eq_append_getElem h, List.flatten_append, List.length_append]
  simp

theorem lineStart_mono {i j : Nat} (h : i ≤ j) : lineStart lines i ≤ lineStart lines j := by
  have hbegins : lines.take i <+: lines.take j := List.take_prefix_take_left h
  obtain ⟨rest, hrest⟩ := hbegins
  rw [lineStart, lineStart, ← hrest, List.flatten_append, List.length_append]
  exact Nat.le_add_right ..

theorem lineStart_length (lines : List Units) : lineStart lines lines.length = lines.flatten.length := by
  rw [lineStart, List.take_length]

theorem length_lineSpans (offset : Nat) (lines : List Units) : (lineSpans offset lines).length = lines.length := by
  induction lines generalizing offset with
  | nil => rfl
  | cons line lines ih => simp [lineSpans, ih]

theorem lineSpans_getElem? (offset : Nat) {i : Nat} (h : i < lines.length) :
    (lineSpans offset lines)[i]? = some (offset + lineStart lines i, offset + lineStart lines (i + 1)) := by
  induction lines generalizing offset i with
  | nil => simp at h
  | cons line lines ih =>
    cases i with
    | zero => simp [lineSpans, lineStart]
    | succ i =>
      rw [lineSpans, List.getElem?_cons_succ, ih _ (Nat.lt_of_succ_lt_succ h)]
      simp [lineStart, Nat.add_assoc]

/-- The span of a line. -/
theorem span_eq {i : Nat} (h : i < lines.length) :
    (lineSpans 0 lines)[i]? = some (lineStart lines i, lineStart lines (i + 1)) := by
  rw [lineSpans_getElem? 0 h, Nat.zero_add, Nat.zero_add]

/-! ## The lines of a replacement -/

/-- The walk ends at the first line that reaches to the end. -/
theorem endLine_spec (stop line : Nat) (spans : List (Nat × Nat)) :
    ∃ k ≤ spans.length, endLine stop line spans = line + k ∧
      (∀ j < k, ∃ span, spans[j]? = some span ∧ span.2 < stop) ∧ ∀ span, spans[k]? = some span → stop ≤ span.2 := by
  induction spans generalizing line with
  | nil => exact ⟨0, Nat.le_refl _, rfl, by simp, by simp⟩
  | cons span spans ih =>
    rw [endLine]
    split
    · next hlt =>
      obtain ⟨k, hk, hend, hbefore, hat⟩ := ih (line + 1)
      refine ⟨k + 1, Nat.succ_le_succ hk, by omega, fun j hj => ?_, by simpa using hat⟩
      cases j with
      | zero => exact ⟨span, rfl, hlt⟩
      | succ j => exact hbefore j (Nat.lt_of_succ_lt_succ hj)
    · next hge =>
      refine ⟨0, Nat.zero_le _, rfl, by simp, fun span' hspan => ?_⟩
      obtain rfl := Option.some.inj hspan
      omega

/-- The lines from the one in which a replacement begins to the first that
reaches to its end. -/
structure LineRange (lines : List Units) (r : Region UInt16) (startLine endLine : Nat) : Prop where
  lt : startLine < endLine
  le : endLine ≤ lines.length
  start_le : lineStart lines startLine ≤ r.start
  start_lt : r.start < lineStart lines (startLine + 1)
  stop_le : r.stop ≤ lineStart lines endLine
  lt_stop : ∀ j, startLine ≤ j → j + 1 < endLine → lineStart lines (j + 1) < r.stop

theorem replacementLineRange_spec {r : Region UInt16} {startLine endLine : Nat}
    (h : replacementLineRange (lineSpans 0 lines) r = some (startLine, endLine)) :
    LineRange lines r startLine endLine := by
  rw [replacementLineRange] at h
  split at h
  · cases h
  · next first hfirst =>
    obtain ⟨hlt, hspan, _⟩ := List.findIdx?_eq_some_iff_getElem.mp hfirst
    have hlines : first < lines.length := by rwa [length_lineSpans] at hlt
    have hvalue := span_eq hlines
    rw [List.getElem?_eq_getElem hlt] at hvalue
    rw [Option.some.inj hvalue, decide_eq_true_eq] at hspan
    obtain ⟨k, hk, hend, hbefore, hat⟩ := endLine_spec r.stop first ((lineSpans 0 lines).drop first)
    simp only [hend, length_lineSpans] at h
    split at h
    · cases h
    · next hle =>
      obtain ⟨rfl, rfl⟩ := Prod.mk.inj (Option.some.inj h)
      have hlast : first + k < lines.length := by omega
      have hreach := hat _ (by rw [List.getElem?_drop]; exact span_eq hlast)
      refine ⟨by omega, by omega, hspan.1, hspan.2, hreach, fun j hj hj' => ?_⟩
      obtain ⟨span, hspan', hlt'⟩ := hbefore (j - first) (by omega)
      rw [List.getElem?_drop, Nat.add_sub_cancel' hj, span_eq (by omega)] at hspan'
      obtain rfl := Option.some.inj hspan'
      exact hlt'

/-- Every line of the range is touched. -/
theorem LineRange.touches {r : Region UInt16} {startLine endLine : Nat}
    (h : LineRange lines r startLine endLine) {j : Nat} (hj : startLine ≤ j) (hj' : j < endLine) :
    Touches r (lineStart lines j) (lineStart lines (j + 1)) := by
  have hstart := h.start_lt
  have hmono := @lineStart_mono lines (startLine + 1) (j + 1) (by omega)
  refine ⟨by omega, ?_⟩
  rcases Nat.eq_or_lt_of_le hj with rfl | hlt
  · exact .inr h.start_le
  · have hstop := h.lt_stop (j - 1) (by omega) (by omega)
    rw [Nat.sub_add_cancel (by omega)] at hstop
    exact .inl hstop

/-! ## Groups -/

/-- A group: its replacements lie in its lines, and touch each of them. -/
structure Group.Rewrites (lines : List Units) (g : Group) : Prop where
  lt : g.startLine < g.endLine
  le : g.endLine ≤ lines.length
  stop_le : ∀ r ∈ g.replacements, r.stop ≤ lineStart lines g.endLine
  touched : ∀ j, g.startLine ≤ j → j < g.endLine →
    Touched g.replacements (lineStart lines j) (lineStart lines (j + 1))

/-- Groups one after another from a line on, whose replacements are in order. -/
def GroupsFrom (lines : List Units) : Nat → List Group → Prop
  | _, [] => True
  | index, g :: groups =>
    index ≤ g.startLine ∧ g.Rewrites lines ∧
      Ordered (lineStart lines g.startLine) (lineStart lines g.endLine) g.replacements ∧
      GroupsFrom lines g.endLine groups

theorem GroupsFrom.rewrites {index : Nat} {groups : List Group} (h : GroupsFrom lines index groups) :
    ∀ g ∈ groups, g.Rewrites lines := by
  induction groups generalizing index with
  | nil => simp
  | cons g groups ih => exact List.forall_mem_cons.mpr ⟨h.2.1, ih h.2.2.2⟩

theorem ordered_of_append {pos stop stop' : Nat} {front back : List (Region UInt16)}
    (h : Ordered pos stop (front ++ back)) (hpos : pos ≤ stop') (hstop : ∀ r ∈ front, r.stop ≤ stop') :
    Ordered pos stop' front := by
  induction front generalizing pos with
  | nil => exact hpos
  | cons r front ih =>
    obtain ⟨hr, hrest⟩ := List.forall_mem_cons.mp hstop
    exact ⟨h.1, ih h.2 hr hrest⟩

theorem ordered_back {pos stop : Nat} {front back : List (Region UInt16)} (h : Ordered pos stop (front ++ back)) :
    Ordered pos stop back := by
  induction front generalizing pos with
  | nil => exact h
  | cons r front ih =>
    have hback := ih h.2
    have hle : pos ≤ r.stop := Nat.le_trans h.1 (Nat.le_add_right ..)
    exact hback.mono (Nat.le_trans hle h.2.le) fun r' hr' => Nat.le_trans hle (hback.start_le r' hr')

/-- A replacement in the first line of its range begins a group. -/
theorem LineRange.rewrites {r : Region UInt16} {startLine endLine : Nat}
    (h : LineRange lines r startLine endLine) : (Group.mk startLine endLine [r]).Rewrites lines :=
  ⟨h.lt, h.le, fun _ hr' => List.mem_singleton.mp hr' ▸ h.stop_le,
    fun _ hj hj' => ⟨r, List.mem_singleton_self r, h.touches hj hj'⟩⟩

/-- A replacement that begins in a group's lines joins it. -/
theorem Group.Rewrites.join {g : Group} (h : g.Rewrites lines) {r : Region UInt16} {startLine endLine : Nat}
    (hr : LineRange lines r startLine endLine) (hlt : startLine < g.endLine) :
    (Group.mk g.startLine (max g.endLine endLine) (g.replacements ++ [r])).Rewrites lines := by
  refine ⟨Nat.lt_of_lt_of_le h.lt (Nat.le_max_left ..), Nat.max_le.mpr ⟨h.le, hr.le⟩, fun r' hr' => ?_,
    fun j hj hj' => ?_⟩
  · rcases List.mem_append.mp hr' with hr' | hr'
    · exact Nat.le_trans (h.stop_le r' hr') (lineStart_mono (Nat.le_max_left ..))
    · obtain rfl := List.mem_singleton.mp hr'
      exact Nat.le_trans hr.stop_le (lineStart_mono (Nat.le_max_right ..))
  · rcases Nat.lt_or_ge j g.endLine with hin | hout
    · obtain ⟨r', hr', htouch⟩ := h.touched j hj hin
      exact ⟨r', List.mem_append_left _ hr', htouch⟩
    · have hmax : j < max g.endLine endLine := hj'
      exact ⟨r, List.mem_append_right _ (List.mem_singleton_self r), hr.touches (by omega) (by omega)⟩

/-- The groups of replacements in order, behind an open one. -/
theorem grouped_some_spec {g : Group} {replacements : List (Region UInt16)} {groups : List Group} {stop : Nat}
    (hg : g.Rewrites lines)
    (hordered : Ordered (lineStart lines g.startLine) stop (g.replacements ++ replacements))
    (h : grouped (replacementLineRange (lineSpans 0 lines)) (some g) replacements = some groups) :
    (∀ index ≤ g.startLine, GroupsFrom lines index groups) ∧
      groups.flatMap Group.replacements = g.replacements ++ replacements := by
  induction replacements generalizing g groups with
  | nil =>
    obtain rfl : [g] = groups := Option.some.inj h
    refine ⟨fun index hindex => ⟨hindex, hg, ?_, trivial⟩, by simp⟩
    exact ordered_of_append hordered (lineStart_mono (Nat.le_of_lt hg.lt)) hg.stop_le
  | cons r replacements ih =>
    rw [grouped] at h
    cases hrange : replacementLineRange (lineSpans 0 lines) r with
    | none => simp [hrange] at h
    | some range =>
      obtain ⟨startLine, endLine⟩ := range
      have hr := replacementLineRange_spec hrange
      simp only [hrange] at h
      split at h
      · next hlt =>
        obtain ⟨hfrom, hflat⟩ := ih (hg.join hr hlt) (by simpa using hordered) h
        exact ⟨hfrom, by simpa using hflat⟩
      · next hge =>
        obtain ⟨rest, hrest, rfl⟩ := Option.map_eq_some_iff.mp h
        have hback := ordered_back hordered
        obtain ⟨hfrom, hflat⟩ := ih hr.rewrites ⟨hr.start_le, hback.2⟩ hrest
        refine ⟨fun index hindex => ⟨hindex, hg, ?_, hfrom _ (Nat.le_of_not_lt hge)⟩, by simp [hflat]⟩
        exact ordered_of_append hordered (lineStart_mono (Nat.le_of_lt hg.lt)) hg.stop_le

/-- The groups of replacements in order. -/
theorem grouped_spec {replacements : List (Region UInt16)} {groups : List Group} {stop : Nat}
    (hordered : Ordered 0 stop replacements)
    (h : grouped (replacementLineRange (lineSpans 0 lines)) none replacements = some groups) :
    GroupsFrom lines 0 groups ∧ groups.flatMap Group.replacements = replacements := by
  cases replacements with
  | nil =>
    obtain rfl : [] = groups := Option.some.inj h
    exact ⟨trivial, rfl⟩
  | cons r replacements =>
    rw [grouped] at h
    cases hrange : replacementLineRange (lineSpans 0 lines) r with
    | none => simp [hrange] at h
    | some range =>
      obtain ⟨startLine, endLine⟩ := range
      have hr := replacementLineRange_spec hrange
      simp only [hrange] at h
      obtain ⟨hfrom, hflat⟩ := grouped_some_spec hr.rewrites ⟨hr.start_le, hordered.2⟩ h
      exact ⟨hfrom 0 (Nat.zero_le _), hflat⟩

/-! ## The lines that are kept -/

/-- Every line of the text that is in no group is kept. -/
theorem kept_spliceGroups {lines originalLines : List Units} (hlength : originalLines.length = lines.length)
    {changes : Nat → Prop} [DecidablePred changes] (base : Units) {index : Nat} {groups : List Group}
    (hgroups : GroupsFrom lines index groups)
    (hchanges : ∀ g ∈ groups, ∀ j, g.startLine ≤ j → j < g.endLine → changes j) :
    Preserved (Splice.keepBy changes index (originalLines.drop index))
      (spliceGroups originalLines (lineSpans 0 lines) base index groups) := by
  induction groups generalizing index with
  | nil => exact Splice.kept_keepBy changes index _
  | cons g groups ih =>
    obtain ⟨hindex, hrewrites, _, hrest⟩ := hgroups
    obtain ⟨hfirst, hothers⟩ := List.forall_mem_cons.mp hchanges
    have hlt := hrewrites.lt
    have hle := hrewrites.le
    have hsplit : originalLines.drop index = (originalLines.take g.startLine).drop index ++
        ((originalLines.take g.endLine).drop g.startLine ++ originalLines.drop g.endLine) := by
      have hback : (originalLines.take g.endLine).drop g.startLine ++ originalLines.drop g.endLine =
          originalLines.drop g.startLine := by
        conv_rhs => rw [← List.take_append_drop g.endLine originalLines,
          List.drop_append_of_le_length (by rw [List.length_take]; omega)]
      rw [hback]
      conv_lhs => rw [← List.take_append_drop g.startLine originalLines,
        List.drop_append_of_le_length (by rw [List.length_take]; omega)]
    have hbefore : ((originalLines.take g.startLine).drop index).length = g.startLine - index := by
      rw [List.length_drop, List.length_take]
      omega
    have hin : ((originalLines.take g.endLine).drop g.startLine).length = g.endLine - g.startLine := by
      rw [List.length_drop, List.length_take]
      omega
    have hmarks : Splice.keepBy changes g.startLine ((originalLines.take g.endLine).drop g.startLine) = _ :=
      Splice.keepBy_eq_replicate changes fun j hj hj' => hfirst j hj (by omega)
    have hend : g.startLine + (g.endLine - g.startLine) = g.endLine := by omega
    rw [hsplit, Splice.keepBy_append, Splice.keepBy_append, hbefore, Nat.add_sub_cancel' hindex, hmarks, hin, hend,
      spliceGroups]
    refine (Splice.kept_keepBy changes index _).append (Preserved.append ?_ (ih hrest hothers))
    exact Splice.kept_replicate (by omega) _

/-- The lines of a text, those whose places in the base are touched unmarked. -/
def keptLines (regions : List (Region UInt16)) (baseLines lines : List Units) : List (Option Units) :=
  Splice.keepBy (fun i => Touched regions (lineStart baseLines i) (lineStart baseLines (i + 1))) 0 lines

/-- Replacements that are grouped have lines. -/
theorem lineRange_of_grouped {last : Option Group} {replacements : List (Region UInt16)} {groups : List Group}
    (h : grouped (replacementLineRange (lineSpans 0 lines)) last replacements = some groups) :
    ∀ r ∈ replacements, ∃ startLine endLine, LineRange lines r startLine endLine := by
  induction replacements generalizing last groups with
  | nil => simp
  | cons r replacements ih =>
    rw [grouped] at h
    cases hrange : replacementLineRange (lineSpans 0 lines) r with
    | none => simp [hrange] at h
    | some range =>
      refine List.forall_mem_cons.mpr ⟨⟨_, _, replacementLineRange_spec hrange⟩, ?_⟩
      simp only [hrange] at h
      split at h
      · exact ih h
      · split at h
        · exact ih h
        · obtain ⟨rest, hrest, _⟩ := Option.map_eq_some_iff.mp h
          exact ih hrest

/-- Every line that no replacement touches in the base is kept. -/
theorem kept_preserveUnchangedLines {original base text : Units} {replacements : List (Region UInt16)}
    (hchain : (sorted replacements).IsChain fun r r' => r.stop ≤ r'.start)
    (h : preserveUnchangedLines original base replacements = .ok text) :
    Preserved (keptLines (sorted replacements) (linesWithEndings base) (linesWithEndings original)) text := by
  rw [preserveUnchangedLines] at h
  simp only [length_lineSpans] at h
  split at h
  · cases h
  · next hlength =>
    rw [not_ne_iff] at hlength
    split at h
    · cases h
    · next groups hgroups =>
      obtain rfl := Except.ok.inj h
      have hordered : Ordered 0 base.length (sorted replacements) := by
        refine Splice.ordered_of_isChain hchain (Nat.zero_le _) (fun _ _ => Nat.zero_le _) fun r hr => ?_
        obtain ⟨startLine, endLine, hrange⟩ := lineRange_of_grouped hgroups r hr
        have hle := Nat.le_trans hrange.stop_le (lineStart_mono hrange.le)
        rwa [lineStart_length, flatten_linesWithEndings] at hle
      obtain ⟨hfrom, hflat⟩ := grouped_spec hordered hgroups
      refine kept_spliceGroups hlength base hfrom fun g hg j hj hj' => ?_
      obtain ⟨r, hr, htouch⟩ := (hfrom.rewrites g hg).touched j hj hj'
      exact ⟨r, hflat ▸ List.mem_flatMap_of_mem hg hr, htouch⟩

/-- Lines by their places or by their numbers. -/
theorem marks_eq_keepBy (regions : List (Region UInt16)) (front lines : List Units) :
    Splice.marks regions (lineStart (front ++ lines) front.length) lines =
      Splice.keepBy (fun i => Touched regions (lineStart (front ++ lines) i) (lineStart (front ++ lines) (i + 1)))
        front.length lines := by
  induction lines generalizing front with
  | nil => rfl
  | cons line lines ih =>
    have hlt : front.length < (front ++ line :: lines).length := by simp
    have hnext := lineStart_succ hlt
    rw [List.getElem_append_right (Nat.le_refl _)] at hnext
    simp only [Nat.sub_self, List.getElem_cons_zero] at hnext
    have hrest := ih (front ++ [line])
    simp only [List.append_assoc, List.singleton_append, List.length_append, List.length_singleton] at hrest
    rw [Splice.marks, Splice.keepBy, ← hnext, hrest]

/-- Every line that no edit touches is kept. -/
theorem kept_applyEdits (nfkc : Units → Units) {normalized before content : Units} {edits : List (Units × Units)}
    (hok : applyEdits nfkc normalized edits = .ok (before, content)) :
    Preserved (keptLines (regionsOf nfkc (baseOf nfkc normalized (normalizedEdits edits)) (normalizedEdits edits))
      (linesWithEndings (baseOf nfkc normalized (normalizedEdits edits))) (linesWithEndings normalized)) content := by
  obtain ⟨hne, _, hchain, hnew, _⟩ := (applyEdits_eq_ok nfkc).mp hok
  rw [newContent] at hnew
  cases hused : usesFuzzy nfkc normalized (normalizedEdits edits) with
  | true =>
    rw [hused, if_pos rfl] at hnew
    have hsorted := sorted_sorted
      ((normalizedEdits edits).filterMap (regionOf nfkc (baseOf nfkc normalized (normalizedEdits edits))))
    rw [← regionsOf] at hsorted
    have hkept := kept_preserveUnchangedLines (by rw [hsorted]; exact hchain) hnew
    rwa [hsorted] at hkept
  | false =>
    have hbase : baseOf nfkc normalized (normalizedEdits edits) = normalized := by
      rw [baseOf, hused]
      rfl
    rw [hused, hbase] at hnew
    rw [hbase] at hchain ⊢
    obtain rfl := Except.ok.inj hnew
    have hregion : ∀ r ∈ regionsOf nfkc normalized (normalizedEdits edits),
        0 < r.length ∧ r.stop ≤ normalized.length := by
      intro r hr
      obtain ⟨edit, hedit, hr'⟩ := List.mem_filterMap.mp ((sorted_perm _).mem_iff.mp hr)
      obtain ⟨hfind, hlength, _⟩ := find_of_not_usesFuzzy nfkc hused hedit hr'
      have hpos := List.length_pos_iff.mpr (hne edit hedit)
      have hle := Occurrences.find_add_length_le hfind
      exact ⟨by omega, by rw [Region.stop]; omega⟩
    have hordered : Ordered 0 normalized.length (regionsOf nfkc normalized (normalizedEdits edits)) :=
      Splice.ordered_of_isChain hchain (Nat.zero_le _) (fun _ _ => Nat.zero_le _) fun r hr => (hregion r hr).2
    have hlines := marks_eq_keepBy (regionsOf nfkc normalized (normalizedEdits edits)) [] (linesWithEndings normalized)
    have hkept := Splice.kept_marks (fun r hr => (hregion r hr).1) (@linesWithEndings_ne_nil normalized)
      (by rw [flatten_linesWithEndings]; exact hordered)
    rw [flatten_linesWithEndings] at hkept
    rw [applyReplacements, Splice.spliceAll_eq (by rw [Nat.zero_add]; exact hordered), keptLines]
    simp only [List.nil_append, List.length_nil] at hlines
    rw [← hlines]
    exact hkept

end Edit

end MinionAgent
