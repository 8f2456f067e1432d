import MinionAgent.Library.SplitOn
import MinionAgent.Session.RustSession

/-!
# MinionAgent.Session.EventNames

The names of events, as both bindings validate them (`session/events.py`,
`session/mod.rs`): segments with a slash between two.

* `matchesName_iff` — the pattern without its `$`;
* `eventKindNew_iff` — the split and the scan;
* `eventNames_agree_iff` — they differ where a name ends in a newline.
-/

namespace MinionAgent

/-! ## Names -/

/-- A character behind the first of a segment. -/
def isNameChar (dash : Bool) (c : Char) : Bool := isAsciiLower c || isAsciiDigit c || c == '_' || (dash && c == '-')

/-- A lowercase letter, then letters, digits and underscores, and dashes where
they are allowed. -/
def IsSegment (dash : Bool) (segment : List Char) : Prop :=
  ∃ c cs, segment = c :: cs ∧ isAsciiLower c = true ∧ ∀ d ∈ cs, isNameChar dash d = true

/-- One or more segments, those behind the first with dashes. -/
def IsEventName (name : List Char) : Prop :=
  ∃ first others, name = ['/'].intercalate (first :: others) ∧ IsSegment false first ∧
    ∀ segment ∈ others, IsSegment true segment

/-- Parts that are segments, those behind the first with dashes. -/
def AreSegments (dash : Bool) (parts : List (List Char)) : Prop :=
  ∃ first others, parts = first :: others ∧ IsSegment dash first ∧ ∀ segment ∈ others, IsSegment true segment

/-- Parts that are the rest of a segment and segments behind it. -/
def AreSegmentsRest (dash : Bool) (parts : List (List Char)) : Prop :=
  ∃ first others, parts = first :: others ∧ (∀ c ∈ first, isNameChar dash c = true) ∧
    ∀ segment ∈ others, IsSegment true segment

theorem isNameChar_slash (dash : Bool) : isNameChar dash '/' = false := by cases dash <;> decide

theorem isNameChar_newline (dash : Bool) : isNameChar dash '\n' = false := by cases dash <;> decide

theorem not_mem_segment {dash : Bool} {segment : List Char} {c : Char} (h : IsSegment dash segment)
    (hlower : isAsciiLower c = false) (hname : ∀ dash, isNameChar dash c = false) : c ∉ segment := by
  obtain ⟨first, cs, rfl, hfirst, hcs⟩ := h
  intro hmem
  cases List.mem_cons.mp hmem with
  | inl heq =>
    rw [← heq, hlower] at hfirst
    cases hfirst
  | inr hin =>
    have hc := hcs c hin
    rw [hname] at hc
    cases hc

/-- A name is its segments joined. -/
theorem isEventName_iff {name : List Char} : IsEventName name ↔ AreSegments false (name.splitOn '/') := by
  constructor
  · intro ⟨first, others, hname, hfirst, hothers⟩
    have hslash : ∀ segment ∈ first :: others, '/' ∉ segment := by
      refine List.forall_mem_cons.mpr ⟨not_mem_segment hfirst (by decide) isNameChar_slash, fun segment hmem => ?_⟩
      exact not_mem_segment (hothers segment hmem) (by decide) isNameChar_slash
    exact ⟨first, others, by rw [hname, List.splitOn_intercalate '/' hslash (by simp)], hfirst, hothers⟩
  · intro ⟨first, others, hparts, hfirst, hothers⟩
    exact ⟨first, others, by rw [← hparts, List.intercalate_splitOn], hfirst, hothers⟩

theorem mem_intercalate {sep c : Char} {parts : List (List Char)} (h : c ∈ [sep].intercalate parts) :
    c = sep ∨ ∃ part ∈ parts, c ∈ part := by
  induction parts with
  | nil => cases h
  | cons part parts ih =>
    cases parts with
    | nil => exact .inr ⟨part, List.mem_singleton_self part, by simpa using h⟩
    | cons next parts =>
      rw [List.intercalate_cons_cons] at h
      grind

/-- No name ends in a newline. -/
theorem not_isEventName_newline (body : List Char) : ¬ IsEventName (body ++ ['\n']) := by
  intro ⟨first, others, hname, hfirst, hothers⟩
  have hmem : '\n' ∈ ['/'].intercalate (first :: others) := hname ▸ by simp
  obtain hslash | ⟨segment, hsegment, hin⟩ := mem_intercalate hmem
  · exact absurd hslash (by decide)
  · cases List.mem_cons.mp hsegment with
    | inl heq => exact not_mem_segment (heq ▸ hfirst) (by decide) isNameChar_newline hin
    | inr hother => exact not_mem_segment (hothers segment hother) (by decide) isNameChar_newline hin

/-! ## Both validators -/

theorem splitOn_slash (text : List Char) : ('/' :: text).splitOn '/' = [] :: text.splitOn '/' :=
  List.splitOn_append_cons_self [] text

theorem splitOn_other {c : Char} (hc : c ≠ '/') (text : List Char) :
    (c :: text).splitOn '/' = (text.splitOn '/').modifyHead (c :: ·) := by
  rw [List.splitOn_cons_eq_if_modifyHead, if_neg (by simpa using hc)]

/-- A text begins a segment with a lowercase letter. -/
theorem areSegments_cons {dash : Bool} {c : Char} {text : List Char} :
    AreSegments dash ((c :: text).splitOn '/') ↔ isAsciiLower c = true ∧ AreSegmentsRest dash (text.splitOn '/') := by
  by_cases hc : c = '/'
  · subst hc
    rw [splitOn_slash]
    refine iff_of_false ?_ fun h => absurd h.1 (by decide)
    intro ⟨first, others, hparts, ⟨c, cs, hfirst, _⟩, _⟩
    rw [hfirst] at hparts
    cases hparts
  · rw [splitOn_other hc]
    obtain ⟨first, others, hparts⟩ := List.exists_cons_of_ne_nil (List.splitOn_ne_nil '/' text)
    rw [hparts, List.modifyHead_cons]
    constructor
    · intro ⟨_, _, heq, ⟨c', cs, hsegment, hlower, hcs⟩, hothers⟩
      obtain ⟨rfl, rfl⟩ := List.cons.inj heq
      obtain ⟨rfl, rfl⟩ := List.cons.inj hsegment
      exact ⟨hlower, first, others, rfl, hcs, hothers⟩
    · intro ⟨hlower, _, _, heq, hcs, hothers⟩
      obtain ⟨rfl, rfl⟩ := List.cons.inj heq
      exact ⟨_, _, rfl, ⟨c, first, rfl, hlower, hcs⟩, hothers⟩

/-- The pattern goes on as the parts of the text do. -/
theorem matchesNameRest_iff {dash : Bool} {text : List Char} :
    matchesNameRest dash text = true ↔ AreSegmentsRest dash (text.splitOn '/') := by
  induction dash, text using matchesNameRest.induct with
  | case1 dash => simp [matchesNameRest, AreSegmentsRest]
  | case2 dash c cs ih =>
    rw [matchesNameRest, splitOn_slash, Bool.and_eq_true, ih, ← areSegments_cons]
    constructor
    · intro ⟨first, others, hparts, hfirst, hothers⟩
      exact ⟨[], _, rfl, nofun, hparts ▸ List.forall_mem_cons.mpr ⟨hfirst, hothers⟩⟩
    · intro ⟨_, _, heq, _, hothers⟩
      obtain ⟨rfl, rfl⟩ := List.cons.inj heq
      obtain ⟨first, others, hparts⟩ := List.exists_cons_of_ne_nil (List.splitOn_ne_nil '/' (c :: cs))
      rw [hparts] at hothers ⊢
      obtain ⟨hfirst, hothers⟩ := List.forall_mem_cons.mp hothers
      exact ⟨first, others, rfl, hfirst, hothers⟩
  | case3 dash c cs hslash ih =>
    rw [matchesNameRest.eq_3 dash c cs hslash, Bool.and_eq_true, ih]
    by_cases hc : c = '/'
    · subst hc
      have hnil : cs = [] := by
        by_contra hne
        obtain ⟨d, ds, rfl⟩ := List.exists_cons_of_ne_nil hne
        exact hslash d ds rfl rfl
      subst hnil
      refine iff_of_false (fun h => ?_) ?_
      · have hchar : isNameChar dash '/' = true := h.1
        rw [isNameChar_slash] at hchar
        cases hchar
      · intro ⟨_, _, heq, _, hothers⟩
        rw [splitOn_slash, List.splitOn_nil] at heq
        obtain ⟨rfl, rfl⟩ := List.cons.inj heq
        obtain ⟨c, cs, hsegment, _⟩ := hothers [] (List.mem_singleton_self _)
        cases hsegment
    · rw [splitOn_other hc]
      obtain ⟨first, others, hparts⟩ := List.exists_cons_of_ne_nil (List.splitOn_ne_nil '/' cs)
      rw [hparts, List.modifyHead_cons]
      constructor
      · intro ⟨hchar, _, _, heq, hfirst, hothers⟩
        obtain ⟨rfl, rfl⟩ := List.cons.inj heq
        exact ⟨_, _, rfl, List.forall_mem_cons.mpr ⟨hchar, hfirst⟩, hothers⟩
      · intro ⟨_, _, heq, hfirst, hothers⟩
        obtain ⟨rfl, rfl⟩ := List.cons.inj heq
        obtain ⟨hchar, hfirst⟩ := List.forall_mem_cons.mp hfirst
        exact ⟨hchar, _, _, rfl, hfirst, hothers⟩

/-- The pattern without its `$` matches the names. -/
theorem matchesName_iff {name : List Char} : matchesName name = true ↔ IsEventName name := by
  rw [isEventName_iff]
  cases name with
  | nil =>
    rw [List.splitOn_nil]
    refine iff_of_false nofun ?_
    intro ⟨_, _, heq, ⟨c, cs, hsegment, _⟩, _⟩
    rw [hsegment] at heq
    cases heq
  | cons c cs => rw [matchesName, Bool.and_eq_true, matchesNameRest_iff, areSegments_cons]

/-- What `EventKind::new` asks of the part at an index. -/
theorem segmentAt_iff {part : List Char} {index : Nat} : (match part with
    | [] => false
    | c :: cs =>
      isAsciiLower c &&
        cs.all fun c => isAsciiLower c || isAsciiDigit c || c == '_' || (decide (index > 0) && c == '-'))
      = true ↔ IsSegment (decide (index > 0)) part := by
  cases part with
  | nil =>
    refine iff_of_false Bool.false_ne_true ?_
    intro ⟨c, cs, hpart, _⟩
    cases hpart
  | cons c cs =>
    rw [Bool.and_eq_true, List.all_eq_true]
    constructor
    · intro ⟨hlower, hcs⟩
      exact ⟨c, cs, rfl, hlower, hcs⟩
    · intro ⟨c', cs', hpart, hlower, hcs⟩
      obtain ⟨rfl, rfl⟩ := List.cons.inj hpart
      exact ⟨hlower, hcs⟩

/-- Every index behind the first is positive. -/
theorem all_zipIdx_succ {p : List Char × Nat → Bool} {start : Nat} {parts : List (List Char)}
    (hp : ∀ part index, p (part, index) = true ↔ IsSegment (decide (index > 0)) part) :
    (parts.zipIdx (start + 1)).all p = true ↔ ∀ segment ∈ parts, IsSegment true segment := by
  induction parts generalizing start with
  | nil => simp
  | cons part parts ih =>
    rw [List.zipIdx_cons, List.all_cons, Bool.and_eq_true, hp, ih, List.forall_mem_cons,
      decide_eq_true (Nat.succ_pos start)]

/-- The split and the scan accept the names. -/
theorem eventKindNew_iff {name : String} : Rust.eventKindNew name = .ok name ↔ IsEventName name.toList := by
  have hvalid (valid : Bool) :
      (if valid then Except.ok name else .error .invalidEventKind : Except Rust.SessionError String) = .ok name ↔
        valid = true := by
    cases valid <;> simp
  rw [isEventName_iff, Rust.eventKindNew, hvalid]
  obtain ⟨first, others, hparts⟩ := List.exists_cons_of_ne_nil (List.splitOn_ne_nil '/' name.toList)
  rw [hparts, List.zipIdx_cons, List.all_cons, Bool.and_eq_true, all_zipIdx_succ fun _ _ => segmentAt_iff]
  refine (and_congr_left' segmentAt_iff).trans ?_
  constructor
  · intro ⟨hfirst, hothers⟩
    exact ⟨first, others, rfl, hfirst, hothers⟩
  · intro ⟨_, _, heq, hfirst, hothers⟩
    obtain ⟨rfl, rfl⟩ := List.cons.inj heq
    exact ⟨hfirst, hothers⟩

/-- A name and a newline behind it. -/
def EndsInNewline (name : List Char) : Prop := ∃ body, name = body ++ ['\n'] ∧ IsEventName body

/-- `$` lets a newline pass. -/
theorem validateEventName_iff {name : String} :
    validateEventName name = .ok name ↔ IsEventName name.toList ∨ EndsInNewline name.toList := by
  have hvalid : validateEventName name = .ok name ↔ isEventName name = true := by
    unfold validateEventName
    cases isEventName name <;> simp
  rw [hvalid, isEventName, Bool.or_eq_true, Bool.and_eq_true, matchesName_iff, matchesName_iff, beq_iff_eq]
  constructor
  · intro h
    refine h.imp_right fun ⟨hlast, hbody⟩ => ⟨_, ?_, hbody⟩
    exact (List.dropLast_append_getLast? _ hlast).symm
  · intro h
    refine h.imp_right fun ⟨body, hname, hbody⟩ => ?_
    rw [hname]
    exact ⟨by simp, by simpa using hbody⟩

/-- The two validators accept the names, but where a newline follows one. -/
theorem eventNames_agree_iff (name : String) :
    (validateEventName name = .ok name ↔ Rust.eventKindNew name = .ok name) ∧
        (validateEventName name = .ok name ↔ IsEventName name.toList) ∧
        (Rust.eventKindNew name = .ok name ↔ IsEventName name.toList) ↔
      ¬ EndsInNewline name.toList := by
  rw [validateEventName_iff, eventKindNew_iff]
  constructor
  · intro ⟨hagree, _⟩ hnewline
    have hname : IsEventName name.toList := hagree.mp (.inr hnewline)
    obtain ⟨body, hbody, _⟩ := hnewline
    exact not_isEventName_newline body (hbody ▸ hname)
  · intro hnewline
    have hpython : IsEventName name.toList ∨ EndsInNewline name.toList ↔ IsEventName name.toList :=
      or_iff_left hnewline
    exact ⟨hpython, hpython, .rfl⟩

/-- Python takes the name of one letter and a newline, and Rust does not. -/
theorem eventNames_newline :
    validateEventName "a\n" = .ok "a\n" ∧ Rust.eventKindNew "a\n" = .error .invalidEventKind ∧
      ¬ IsEventName "a\n".toList := by
  refine ⟨rfl, rfl, ?_⟩
  exact not_isEventName_newline ['a']

end MinionAgent
