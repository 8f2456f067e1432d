import MinionAgent.Library.Inherited
import MinionAgent.Library.SplitOn
import MinionAgent.Library.Utf16
import Mathlib.Data.List.Induction

/-!
# MinionAgent.Skills.Ignore

The ignore rules of skill discovery (`skills/_ignore.py`): `Ignore` with its
rules and its cache.  The regular expression of a pattern and its matching are
a parameter (`RegExps`).

* `Ignore.t` — the walk to the nearest cached ancestor and back down;
* `parents` — a path's parent directory, rebuilt from its non-empty segments;
* `t_eq_consult` — the walk is the recursion of the `ignore` package;
* `ignored` — the definition of a query, without a cache;
* `Remembers` — what holds of the object after any calls, kept by each of them
  (`Remembers.call`), and enough for a query (`Remembers.ignores`).
-/

namespace MinionAgent

open Rfc8259 (CodePoint)
open Utf16 (toUnits)

/-- A JavaScript string: its code units. -/
abbrev Units : Type := List UInt16

namespace Ignore

/-- `/`. -/
def slash : UInt16 := 47

/-- `\`. -/
def backslash : UInt16 := 92

/-- What the regular expressions say: the matcher built from a pattern's body,
when JavaScript accepts it, and the case folding of a path's code units. -/
structure RegExps where
  compile : Units → Option (Units → Bool)
  canonicalize : UInt16 → UInt16

/-! ## Rules -/

/-- `_JS_CODE_POINTS`. -/
def jsCodePoints : List UInt16 :=
  [0x09, 0x0A, 0x0B, 0x0C, 0x0D, 0x20, 0xA0, 0x1680, 0x2000, 0x2001, 0x2002, 0x2003, 0x2004, 0x2005, 0x2006, 0x2007,
    0x2008, 0x2009, 0x200A, 0x2028, 0x2029, 0x202F, 0x205F, 0x3000, 0xFEFF]

/-- `_BLANK_LINE`, the expression `^\s+$`. -/
def blankLine (pattern : Units) : Bool := !pattern.isEmpty && pattern.all jsCodePoints.contains

/-- `_INVALID_TRAILING_BACKSLASH`, the expression `(?:[^\\]|^)\\$`. -/
def invalidTrailingBackslash (pattern : Units) : Bool :=
  match pattern.reverse with
  | [] => false
  | [last] => last == backslash
  | last :: before :: _ => last == backslash && before != backslash

/-- `_check_pattern`. -/
def checkPattern (pattern : Units) : Bool :=
  !pattern.isEmpty && !blankLine pattern && !invalidTrailingBackslash pattern && pattern.head? != some 35

/-- `_Rule`, before its expression is built from the body. -/
structure Rule where
  negative : Bool
  body : Units
  deriving DecidableEq

/-- `re.sub(r"^\\c", "c", body, count=1)`. -/
def unescape (c : UInt16) : Units → Units
  | first :: second :: rest => if first = backslash ∧ second = c then second :: rest else first :: second :: rest
  | body => body

/-- `_create_rule`. -/
def createRule (pattern : Units) : Rule :=
  let negative := pattern.head? == some 33
  let body := if negative then pattern.tail else pattern
  { negative, body := unescape 35 (unescape 33 body) }

/-! ## Paths -/

/-- `[s for s in path.split("/") if s]`. -/
def segments (path : Units) : List Units := (path.splitOn slash).filter (!·.isEmpty)

/-- `"/".join(slices) + "/"`. -/
def directory (slices : List Units) : Units := [slash].intercalate slices ++ [slash]

/-- A segment is not empty and has no separator. -/
def IsSegment (s : Units) : Prop := s ≠ [] ∧ slash ∉ s

theorem segments_append_slash (front rest : Units) :
    segments (front ++ slash :: rest) = segments front ++ segments rest := by
  simp [segments, List.splitOn_append_cons_self]

theorem isSegment_of_mem {path s : Units} (h : s ∈ segments path) : IsSegment s := by
  obtain ⟨hmem, hne⟩ := List.mem_filter.mp h
  exact ⟨by simpa using hne, SplitOn.not_mem_of_mem_splitOn hmem⟩

theorem segments_directory {slices : List Units} (hne : slices ≠ []) (h : ∀ s ∈ slices, IsSegment s) :
    segments (directory slices) = slices := by
  have hsplit : segments ([slash].intercalate slices) = slices := by
    rw [segments, List.splitOn_intercalate slash (fun s hs => (h s hs).2) hne]
    exact List.filter_eq_self.mpr fun s hs => by simpa using (h s hs).1
  rw [directory, segments_append_slash, hsplit]
  simp [segments]

/-- The parent directory of a path: its non-empty segments but the last. -/
def parent (path : Units) : Option Units :=
  match (segments path).dropLast with
  | [] => none
  | slices => some (directory slices)

theorem parent_eq_none {path : Units} (h : (segments path).dropLast = []) : parent path = none := by
  rw [parent, h]

theorem parent_eq_some {path : Units} (h : (segments path).dropLast ≠ []) :
    parent path = some (directory (segments path).dropLast) := by
  unfold parent
  split
  · contradiction
  · rfl

theorem segments_directory_dropLast {path : Units} (h : (segments path).dropLast ≠ []) :
    segments (directory (segments path).dropLast) = (segments path).dropLast :=
  segments_directory h fun _ hs => isSegment_of_mem (List.dropLast_subset _ hs)

/-- Paths and their parent directories. -/
def parents : Inherited.Hierarchy Units where
  parent := parent
  rank path := (segments path).length
  rank_parent {path p} h := by
    by_cases hlast : (segments path).dropLast = []
    · cases (parent_eq_none hlast).symm.trans h
    · obtain rfl := Option.some.inj ((parent_eq_some hlast).symm.trans h)
      have hpos : 0 < (segments path).length := by
        rw [List.length_pos_iff]
        grind
      rw [segments_directory_dropLast hlast, List.length_dropLast]
      omega

/-- What has a directory's segments and more lies below the directory. -/
theorem below_directory {slices more : List Units} (hslices : slices ≠ []) (hmore : more ≠ []) {path : Units}
    (h : segments path = slices ++ more) : Inherited.Below parents (directory slices) path := by
  induction more using List.reverseRecOn generalizing path with
  | nil => contradiction
  | append_singleton more last ih =>
    have hlast : (segments path).dropLast = slices ++ more := by
      rw [h, ← List.append_assoc, List.dropLast_concat]
    have hne : (segments path).dropLast ≠ [] := by simp [hlast, hslices]
    have hparent : parents.parent path = some (directory (slices ++ more)) := hlast ▸ parent_eq_some hne
    by_cases hnil : more = []
    · rw [hnil, List.append_nil] at hparent
      exact .single hparent
    · exact .tail (ih hnil (hlast ▸ segments_directory_dropLast hne)) hparent

/-- Every path with a first segment and more, after a directory without empty
segments, lies below the directory. -/
theorem below_of_splitOn {d x : Units} (hd : ∀ s ∈ d.splitOn slash, s ≠ []) (hx : segments x ≠ []) :
    Inherited.Below parents (d ++ [slash]) (d ++ slash :: x) := by
  have hsegments : segments d = d.splitOn slash := List.filter_eq_self.mpr fun s hs => by simpa using hd s hs
  have hdirectory : directory (segments d) = d ++ [slash] := by
    rw [directory, hsegments, List.intercalate_splitOn]
  rw [← hdirectory]
  refine below_directory ?_ hx (segments_append_slash d x)
  rw [hsegments]
  exact List.splitOn_ne_nil slash d

/-- A path that `ignores` is meant for: not empty, and relative to the root. -/
def RootRelative (path : Units) : Prop := path ≠ [] ∧ path.head? ≠ some slash

instance (path : Units) : Decidable (RootRelative path) := inferInstanceAs (Decidable (_ ∧ _))

theorem RootRelative.segments_ne_nil {path : Units} (h : RootRelative path) : segments path ≠ [] := by
  obtain ⟨hne, hhead⟩ := h
  obtain ⟨unit, rest, rfl⟩ := List.exists_cons_of_ne_nil hne
  have hunit : (unit == slash) = false := by simpa using hhead
  obtain ⟨first, others, hsplit⟩ := List.exists_cons_of_ne_nil (List.splitOn_ne_nil slash rest)
  simp [segments, List.splitOn_cons_eq_if_modifyHead, hunit, hsplit]

end Ignore

/-! ## The object -/

/-- `InvalidIgnorePattern`, `IndexError` of a path that has no segment, and the
assertion at the end of `_t`. -/
inductive IgnoreError
  | invalidIgnorePattern
  | indexError
  | assertionError
  deriving DecidableEq

/-- A result: ignored, and unignored. -/
abbrev TestResult : Type := Bool × Bool

/-- `Ignore`. -/
structure Ignore where
  rules : List Ignore.Rule := []
  cache : Units → Option TestResult := fun _ => none

namespace Ignore

variable (E : RegExps)

/-- The loop of `add`. -/
def checkedRules (patterns : List (List CodePoint)) : List Rule :=
  ((patterns.map toUnits).filter checkPattern).map createRule

/-- `Ignore.add`. -/
def add (self : Ignore) (patterns : List (List CodePoint)) : Ignore :=
  match checkedRules patterns with
  | [] => self
  | added => { rules := self.rules ++ added }

/-- The loop of `add_valid`: the valid rules, and the patterns it rejects. -/
def compileRules : List (List CodePoint) → List Rule × List (List CodePoint)
  | [] => ([], [])
  | raw :: patterns =>
    let (valid, rejected) := compileRules patterns
    if checkPattern (toUnits raw) then
      let rule := createRule (toUnits raw)
      match E.compile rule.body with
      | none => (valid, raw :: rejected)
      | some _ => (rule :: valid, rejected)
    else (valid, rejected)

/-- `Ignore.add_valid`. -/
def addValid (self : Ignore) (patterns : List (List CodePoint)) : List (List CodePoint) × Ignore :=
  match compileRules E patterns with
  | ([], rejected) => (rejected, self)
  | (valid, rejected) => (rejected, { rules := self.rules ++ valid })

/-- The loop of `_test` over the rules, with its two flags. -/
def testRules (subject : Units) : List Rule → Bool → Bool → Except IgnoreError TestResult
  | [], ignored, unignored => .ok (ignored, unignored)
  | rule :: rules, ignored, unignored =>
    if (unignored == rule.negative && ignored != unignored) || (rule.negative && !ignored && !unignored) then
      testRules subject rules ignored unignored
    else
      match E.compile rule.body with
      | none => .error .invalidIgnorePattern
      | some search =>
        if search subject then testRules subject rules (!rule.negative) rule.negative
        else testRules subject rules ignored unignored

/-- `Ignore._test`. -/
def test (self : Ignore) (path : Units) : Except IgnoreError TestResult :=
  testRules E (path.map E.canonicalize) self.rules false false

/-- The upward loop of `_t`: the chain of paths to evaluate, and the result of
the ancestor that is cached. -/
def walk (cache : Units → Option TestResult) (slices : List Units) (current : Units) (chain : List Units) :
    Except IgnoreError (List Units × Option TestResult) :=
  match cache current with
  | some result => .ok (chain, some result)
  | none =>
    match slices with
    | [] => .error .indexError
    | first :: rest =>
      let slices := (first :: rest).dropLast
      if slices = [] then .ok (chain ++ [current], none)
      else walk cache slices (directory slices) (chain ++ [current])
termination_by slices.length
decreasing_by simp

/-- The downward loop of `_t`, over the chain in reverse. -/
def evaluate (self : Ignore) :
    List Units → Option TestResult → Except IgnoreError (Option TestResult) × Ignore
  | [], parent => (.ok parent, self)
  | pending :: chain, parent =>
    let result : Except IgnoreError TestResult :=
      match parent with
      | some (true, unignored) => .ok (true, unignored)
      | _ => self.test E pending
    match result with
    | .error e => (.error e, self)
    | .ok result => evaluate { self with cache := Function.update self.cache pending (some result) } chain (some result)

/-- `Ignore._t`. -/
def t (self : Ignore) (path : Units) : Except IgnoreError TestResult × Ignore :=
  match walk self.cache (segments path) path [] with
  | .error e => (.error e, self)
  | .ok (chain, parent) =>
    match self.evaluate E chain.reverse parent with
    | (.error e, self) => (.error e, self)
    | (.ok none, self) => (.error .assertionError, self)
    | (.ok (some result), self) => (.ok result, self)

/-- `Ignore.ignores`. -/
def ignores (self : Ignore) (path : List CodePoint) : Except IgnoreError Bool × Ignore :=
  match self.t E (toUnits path) with
  | (.error e, self) => (.error e, self)
  | (.ok result, self) => (.ok result.1, self)

/-! ## The walk is the recursion -/

variable {E} {self : Ignore}

theorem walk_eq_climb (cache : Units → Option TestResult) {path : Units} (hpath : segments path ≠ [])
    (chain : List Units) :
    walk cache (segments path) path chain =
      .ok (chain ++ (Inherited.climb parents cache path).1, (Inherited.climb parents cache path).2) := by
  induction hn : (segments path).length using Nat.strongRecOn generalizing path chain with
  | _ n ih =>
    rw [walk.eq_def]
    cases hcache : cache path with
    | some result => simp [Inherited.climb_known hcache]
    | none =>
      obtain ⟨first, rest, hslices⟩ := List.exists_cons_of_ne_nil hpath
      rw [hslices]
      by_cases hlast : (first :: rest).dropLast = []
      · have hroot : parents.parent path = none := parent_eq_none (hslices ▸ hlast)
        simp [hlast, Inherited.climb_root hcache hroot]
      · have hchild : parents.parent path = some (directory (first :: rest).dropLast) :=
          (parent_eq_some (hslices ▸ hlast)).trans (by rw [hslices])
        have hsegments : segments (directory (first :: rest).dropLast) = (first :: rest).dropLast :=
          hslices ▸ segments_directory_dropLast (hslices ▸ hlast)
        have hshorter : (segments (directory (first :: rest).dropLast)).length < n := by
          rw [hsegments, ← hn, hslices]
          simp
        have hwalk := ih _ hshorter (by rwa [hsegments]) (chain ++ [path]) rfl
        rw [hsegments] at hwalk
        simp [hlast, hwalk, Inherited.climb_child hcache hchild]

theorem evaluate_eq_descend (self : Ignore) (chain : List Units) (parent : Option TestResult) :
    self.evaluate E chain parent =
      ((Inherited.descend Prod.fst (self.test E) self.cache chain parent).1,
        { self with cache := (Inherited.descend Prod.fst (self.test E) self.cache chain parent).2 }) := by
  induction chain generalizing self parent with
  | nil => rfl
  | cons pending chain ih =>
    have hvalue : (match parent with
        | some (true, unignored) => .ok (true, unignored)
        | _ => self.test E pending : Except IgnoreError TestResult) =
        Inherited.judge Prod.fst (self.test E) parent pending := by
      rcases parent with _ | ⟨_ | _, _⟩ <;> rfl
    simp only [evaluate, Inherited.descend, hvalue]
    cases Inherited.judge Prod.fst (self.test E) parent pending with
    | error e => rfl
    | ok result => exact ih _ _

/-- `_t` is the recursion of the package, over the same cache. -/
theorem t_eq_consult {path : Units} (hpath : segments path ≠ []) :
    self.t E path =
      ((Inherited.consult parents Prod.fst (self.test E) self.cache path).1,
        { self with cache := (Inherited.consult parents Prod.fst (self.test E) self.cache path).2 }) := by
  rw [t, walk_eq_climb self.cache hpath]
  simp only [List.nil_append, evaluate_eq_descend, Inherited.descend_climb]
  cases (Inherited.consult parents Prod.fst (self.test E) self.cache path).1 <;> rfl

/-! ## Without a cache -/

/-- A rule's expression is valid. -/
def Rule.Compiles (E : RegExps) (rule : Rule) : Prop := (E.compile rule.body).isSome = true

instance (rule : Rule) : Decidable (rule.Compiles E) := inferInstanceAs (Decidable (_ = true))

/-- A rule matches a path. -/
def Rule.matches (E : RegExps) (rule : Rule) (path : Units) : Bool :=
  match E.compile rule.body with
  | none => false
  | some search => search (path.map E.canonicalize)

/-- The rules in order, of which the last one that matches decides. -/
def foldRules (E : RegExps) (path : Units) (rules : List Rule) (ignored : Bool) : Bool :=
  rules.foldl (fun ignored rule => if rule.matches E path then !rule.negative else ignored) ignored

/-- A path is ignored if its parent directory path is, and otherwise by its own
rules. -/
def ignored (E : RegExps) (rules : List Rule) (path : Units) : Bool :=
  Inherited.inherits parents (fun path => foldRules E path rules false) path

/-- The rules that the two flags skip would not have changed the answer. -/
theorem testRules_eq_foldRules {rules : List Rule} (hrules : ∀ rule ∈ rules, rule.Compiles E) (path : Units)
    {ignored unignored : Bool} (hflags : ¬ (ignored = true ∧ unignored = true)) :
    ∃ result, testRules E (path.map E.canonicalize) rules ignored unignored = .ok result ∧
      result.1 = foldRules E path rules ignored := by
  induction rules generalizing ignored unignored with
  | nil => exact ⟨_, rfl, rfl⟩
  | cons rule rules ih =>
    have hrest := fun r hr => hrules r (List.mem_cons_of_mem _ hr)
    obtain ⟨search, hsearch⟩ := Option.isSome_iff_exists.mp (hrules rule (List.mem_cons_self ..))
    have hmatches : rule.matches E path = search (path.map E.canonicalize) := by rw [Rule.matches, hsearch]
    have hfold : foldRules E path (rule :: rules) ignored =
        foldRules E path rules (if search (path.map E.canonicalize) then !rule.negative else ignored) := by
      rw [foldRules, List.foldl_cons, hmatches]
      rfl
    rw [testRules, hfold, hsearch]
    by_cases hskip : (unignored == rule.negative && ignored != unignored ||
        rule.negative && !ignored && !unignored) = true
    · rw [if_pos hskip]
      have hsame : (if search (path.map E.canonicalize) then !rule.negative else ignored) = ignored := by
        cases ignored <;> cases unignored <;> simp_all
      rw [hsame]
      exact ih hrest hflags
    · rw [if_neg hskip]
      by_cases hfound : search (path.map E.canonicalize) = true
      · simp only [hfound, if_true]
        exact ih hrest (by simp)
      · simp only [hfound]
        exact ih hrest hflags

/-! ## Calls -/

/-- A call of an `Ignore`. -/
inductive IgnoreCall
  | add (patterns : List (List CodePoint))
  | addValid (patterns : List (List CodePoint))
  | ignores (path : List CodePoint)

/-- The object after a call. -/
def call (E : RegExps) (self : Ignore) : IgnoreCall → Ignore
  | .add patterns => self.add patterns
  | .addValid patterns => (self.addValid E patterns).2
  | .ignores path => (self.ignores E path).2

/-- The object after a history of calls. -/
def after (E : RegExps) (history : List IgnoreCall) : Ignore := history.foldl (call E) {}

/-- The rules that a call adds. -/
def IgnoreCall.rules (E : RegExps) : IgnoreCall → List Rule
  | .add patterns => checkedRules patterns
  | .addValid patterns => (checkedRules patterns).filter (·.Compiles E)
  | .ignores _ => []

/-- The rules added so far. -/
def rulesAdded (E : RegExps) (history : List IgnoreCall) : List Rule := history.flatMap (IgnoreCall.rules E)

/-- `add` is given no pattern that its matcher is not defined for. -/
def IgnoreCall.Compiles (E : RegExps) : IgnoreCall → Prop
  | .add patterns => ∀ rule ∈ checkedRules patterns, rule.Compiles E
  | _ => True

theorem compileRules_fst (patterns : List (List CodePoint)) :
    (compileRules E patterns).1 = (checkedRules patterns).filter (·.Compiles E) := by
  induction patterns with
  | nil => rfl
  | cons raw patterns ih =>
    simp only [compileRules, checkedRules, List.map_cons, List.filter_cons] at ih ⊢
    by_cases hcheck : checkPattern (toUnits raw) = true
    · simp only [hcheck, if_true, List.map_cons, List.filter_cons]
      cases hcompile : E.compile (createRule (toUnits raw)).body with
      | none => simp [Rule.Compiles, hcompile, ih]
      | some search => simp [Rule.Compiles, hcompile, ih]
    · simp [hcheck, ih]

/-- The object has these rules, and each cached result is the one that the
rules give without a cache. -/
structure Remembers (E : RegExps) (rules : List Rule) (object : Ignore) : Prop where
  rules_eq : object.rules = rules
  sound : Inherited.Sound parents Prod.fst (object.test E) object.cache

variable {rules : List Rule}

theorem Remembers.empty : Remembers E [] {} := ⟨rfl, Inherited.Sound.empty⟩

theorem Remembers.extend (h : Remembers E rules self) (added : List Rule) :
    Remembers E (rules ++ added) { rules := self.rules ++ added } :=
  ⟨by rw [h.rules_eq], Inherited.Sound.empty⟩

theorem Remembers.t (h : Remembers E rules self) {path : Units} (hpath : segments path ≠ []) :
    (self.t E path).1 = Inherited.verdict parents Prod.fst (self.test E) path ∧
      Remembers E rules (self.t E path).2 := by
  obtain ⟨hvalue, hsound⟩ := Inherited.consult_spec h.sound path
  rw [t_eq_consult hpath]
  exact ⟨hvalue, h.rules_eq, hsound⟩

/-- A query of a path without a segment fails and leaves the object. -/
theorem t_of_segments_eq_nil (h : Remembers E rules self) {path : Units} (hpath : segments path = []) :
    Remembers E rules (self.t E path).2 := by
  rw [Ignore.t, walk.eq_def, hpath]
  cases hcache : self.cache path with
  | some result => simpa [evaluate] using h
  | none => exact h

theorem ignores_snd (path : List CodePoint) : (self.ignores E path).2 = (self.t E (toUnits path)).2 := by
  rw [ignores]
  rcases self.t E (toUnits path) with ⟨_ | _, _⟩ <;> rfl

/-- Each call keeps the rules and the cache in step. -/
theorem Remembers.call (h : Remembers E rules self) (c : IgnoreCall) :
    Remembers E (rules ++ c.rules E) (self.call E c) := by
  cases c with
  | add patterns =>
    simp only [Ignore.call, add, IgnoreCall.rules]
    cases checkedRules patterns with
    | nil => simpa using h
    | cons rule added => exact h.extend (rule :: added)
  | addValid patterns =>
    simp only [Ignore.call, addValid, IgnoreCall.rules, ← compileRules_fst]
    rcases compileRules E patterns with ⟨_ | ⟨rule, valid⟩, rejected⟩
    · simpa using h
    · exact h.extend (rule :: valid)
  | ignores path =>
    simp only [Ignore.call, IgnoreCall.rules, List.append_nil, ignores_snd]
    by_cases hpath : segments (toUnits path) = []
    · exact t_of_segments_eq_nil h hpath
    · exact (h.t hpath).2

theorem remembers_after (history : List IgnoreCall) : Remembers E (rulesAdded E history) (after E history) := by
  induction history using List.reverseRecOn with
  | nil => exact Remembers.empty
  | append_singleton history c ih =>
    simpa [after, rulesAdded] using ih.call c

/-- A query is answered by the definition without a cache. -/
theorem Remembers.ignores (h : Remembers E rules self) (hrules : ∀ rule ∈ rules, rule.Compiles E)
    {path : List CodePoint} (hpath : segments (toUnits path) ≠ []) :
    (self.ignores E path).1 = .ok (ignored E rules (toUnits path)) := by
  have hown (path : Units) : ∃ result, self.test E path = .ok result ∧ result.1 = foldRules E path rules false := by
    rw [test, h.rules_eq]
    exact testRules_eq_foldRules hrules path (by simp)
  obtain ⟨result, hresult, hignored⟩ :=
    @Inherited.settled_verdict _ _ _ parents Prod.fst _ _ hown (toUnits path)
  rw [← (h.t hpath).1] at hresult
  rw [Ignore.ignores]
  generalize self.t E (toUnits path) = answer at hresult
  obtain ⟨value, self'⟩ := answer
  subst hresult
  exact congrArg Except.ok hignored

theorem rulesAdded_compiles {history : List IgnoreCall} (hadd : ∀ c ∈ history, c.Compiles E) :
    ∀ rule ∈ rulesAdded E history, rule.Compiles E := by
  intro rule hrule
  obtain ⟨c, hc, hrule⟩ := List.mem_flatMap.mp hrule
  cases c with
  | add patterns => exact hadd _ hc rule hrule
  | addValid patterns => simpa using (List.mem_filter.mp hrule).2
  | ignores path => cases hrule

end Ignore

end MinionAgent
