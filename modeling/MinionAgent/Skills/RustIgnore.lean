import MinionAgent.Skills.Ignore

/-!
# MinionAgent.Skills.RustIgnore

The ignore rules of the Rust binding (`skills/ignore.rs`): `Ignore` compiles
each pattern as it is added and caches one flag for a path.

* `ignores_eq_consult` — its two loops are the recursion of the package too;
* `RustIgnore.Remembers` — the object after any calls;
* `ignores_lawful` — both bindings answer every query of every history by
  the definition without a cache, and what is ignored is so with all below it.
-/

namespace MinionAgent

open Rfc8259 (CodePoint)
open Utf16 (toUnits)
open Ignore (RegExps slash backslash segments directory parents parent_eq_none parent_eq_some
  segments_directory_dropLast ignored foldRules IgnoreCall rulesAdded checkedRules checkPattern createRule)

/-- A failed query: the path is invalid, a rule's expression is, or `expect`
finds no result. -/
inductive RustIgnoreError
  | invalidPath
  | invalidRegex
  | unevaluated
  deriving DecidableEq

/-- `Rule`. -/
structure RustRule where
  negative : Bool
  regex : Except Unit (Units → Bool)

/-- `Ignore`. -/
structure RustIgnore where
  rules : List RustRule := []
  cache : Units → Option Bool := fun _ => none

namespace RustIgnore

variable (E : RegExps)

/-! ## Rules -/

/-- `is_ecmascript_whitespace`. -/
def isEcmascriptWhitespace (c : Nat) : Bool :=
  [0x09, 0x0A, 0x0B, 0x0C, 0x0D, 0x20, 0xA0, 0x1680, 0x2000, 0x2001, 0x2002, 0x2003, 0x2004, 0x2005, 0x2006, 0x2007,
    0x2008, 0x2009, 0x200A, 0x2028, 0x2029, 0x202F, 0x205F, 0x3000, 0xFEFF].contains c

/-- `char::from_u32(u).is_some_and(|c| js_trim(&c.to_string()).is_empty())`. -/
def isBlankUnit (u : UInt16) : Bool := Nat.isValidChar u.toNat && isEcmascriptWhitespace u.toNat

/-- The body of a pattern without its sign. -/
def unescape (body : Units) : Units :=
  if [backslash, 33].isPrefixOf body || [backslash, 35].isPrefixOf body then body.tail else body

/-- `Ignore::add_units`. -/
def addUnits (self : RustIgnore) (pattern : Units) : Except Unit Bool × RustIgnore :=
  if pattern.isEmpty || pattern.all isBlankUnit || pattern.head? == some 35 ||
      Ignore.invalidTrailingBackslash pattern then (.ok false, self)
  else
    let negative := pattern.head? == some 33
    let body := unescape (if negative then pattern.tail else pattern)
    match E.compile body with
    | none => (.error (), self)
    | some regex => (.ok true, { rules := self.rules ++ [{ negative, regex := .ok regex }] })

/-! ## Queries -/

/-- The loop of `Ignore::one` over the rules, with its two flags. -/
def oneRules (canonical : Units) : List RustRule → Bool → Bool → Except RustIgnoreError Bool
  | [], ignored, _ => .ok ignored
  | rule :: rules, ignored, unignored =>
    if (unignored == rule.negative && ignored != unignored) || (rule.negative && !ignored && !unignored) then
      oneRules canonical rules ignored unignored
    else
      match rule.regex with
      | .error _ => .error .invalidRegex
      | .ok regex =>
        if regex canonical then oneRules canonical rules (!rule.negative) rule.negative
        else oneRules canonical rules ignored unignored

/-- `Ignore::one`. -/
def one (self : RustIgnore) (path : Units) : Except RustIgnoreError Bool :=
  oneRules (path.map E.canonicalize) self.rules false false

/-- Each part with a separator after it. -/
def joinParts (parts : List Units) : Units := parts.flatMap (· ++ [slash])

theorem joinParts_eq_directory {parts : List Units} (h : parts ≠ []) : joinParts parts = directory parts := by
  induction parts with
  | nil => contradiction
  | cons part parts ih =>
    cases parts with
    | nil => simp [joinParts, directory]
    | cons next parts =>
      have hnext := ih (by simp)
      simp only [joinParts, directory, List.flatMap_cons] at hnext ⊢
      rw [hnext, List.intercalate_cons_cons]
      simp

/-- The first loop of `ignores`: the pending paths, and the path it stops at. -/
def walk (cache : Units → Option Bool) (current : Units) (pending : List Units) : List Units × Units :=
  match cache current with
  | some _ => (pending, current)
  | none =>
    let parts := (segments current).dropLast
    if _h : parts = [] then (pending ++ [current], current)
    else walk cache (joinParts parts) (pending ++ [current])
termination_by (segments current).length
decreasing_by
  rw [joinParts_eq_directory _h]
  exact parents.rank_parent (parent_eq_some _h)

/-- The second loop of `ignores`, over the pending paths from the last. -/
def evaluate (self : RustIgnore) : List Units → Bool → Except RustIgnoreError Unit × RustIgnore
  | [], _ => (.ok (), self)
  | current :: pending, ignored =>
    match if !ignored then self.one E current else .ok ignored with
    | .error e => (.error e, self)
    | .ok ignored =>
      evaluate { self with cache := Function.update self.cache current (some ignored) } pending ignored

/-- The paths that `ignores` does not take. -/
def rejects (path : Units) : Bool :=
  path.isEmpty || [slash].isPrefixOf path || [46, slash].isPrefixOf path || [46, 46, slash].isPrefixOf path ||
    path == [46] || path == [46, 46]

/-- `Ignore::ignores`. -/
def ignores (self : RustIgnore) (path : Units) : Except RustIgnoreError Bool × RustIgnore :=
  if rejects path then (.error .invalidPath, self)
  else
    let (pending, current) := walk self.cache path []
    let ignored := (self.cache current).getD false
    match self.evaluate E pending.reverse ignored with
    | (.error e, self) => (.error e, self)
    | (.ok (), self) =>
      match self.cache path with
      | none => (.error .unevaluated, self)
      | some ignored => (.ok ignored, self)

/-! ## The loops are the recursion -/

variable {E} {self : RustIgnore}

theorem walk_eq_climb (cache : Units → Option Bool) (path : Units) (pending : List Units) :
    (walk cache path pending).1 = pending ++ (Inherited.climb parents cache path).1 ∧
      cache (walk cache path pending).2 = (Inherited.climb parents cache path).2 := by
  induction hn : (segments path).length using Nat.strongRecOn generalizing path pending with
  | _ n ih =>
    rw [walk]
    cases hcache : cache path with
    | some ignored => simp [Inherited.climb_known hcache, hcache]
    | none =>
      by_cases hlast : (segments path).dropLast = []
      · have hroot : parents.parent path = none := parent_eq_none hlast
        simp [hlast, Inherited.climb_root hcache hroot, hcache]
      · have hchild : parents.parent path = some (directory (segments path).dropLast) := parent_eq_some hlast
        obtain ⟨hpending, hstop⟩ :=
          ih _ (hn ▸ parents.rank_parent hchild) (directory (segments path).dropLast) (pending ++ [path]) rfl
        simp [hlast, joinParts_eq_directory hlast, hpending, hstop, Inherited.climb_child hcache hchild]

theorem evaluate_eq_descend (self : RustIgnore) (pending : List Units) (above : Option Bool) :
    self.evaluate E pending (above.getD false) =
      ((Inherited.descend id (self.one E) self.cache pending above).1.map fun _ => (),
        { self with cache := (Inherited.descend id (self.one E) self.cache pending above).2 }) := by
  induction pending generalizing self above with
  | nil => rfl
  | cons current pending ih =>
    have hvalue : (if !above.getD false then self.one E current else .ok (above.getD false)) =
        Inherited.judge id (self.one E) above current := by
      rcases above with _ | _ | _ <;> rfl
    simp only [evaluate, Inherited.descend, hvalue]
    cases Inherited.judge id (self.one E) above current with
    | error e => rfl
    | ok ignored => exact ih { self with cache := Function.update self.cache current (some ignored) } (some ignored)

/-- `ignores` is the recursion of the package, over the same cache. -/
theorem ignores_eq_consult {path : Units} (hpath : rejects path = false) :
    self.ignores E path =
      ((Inherited.consult parents id (self.one E) self.cache path).1,
        { self with cache := (Inherited.consult parents id (self.one E) self.cache path).2 }) := by
  obtain ⟨hpending, hstop⟩ := walk_eq_climb self.cache path []
  rw [ignores, hpath]
  simp only [hpending, hstop, List.nil_append, evaluate_eq_descend, Inherited.descend_climb, Bool.false_eq_true,
    if_false]
  cases hvalue : (Inherited.consult parents id (self.one E) self.cache path).1 with
  | error e => rfl
  | ok ignored =>
    simp only [Except.map, Inherited.consult_remembers hvalue]

/-! ## The rules of both bindings -/

/-- A rule as `add_units` keeps it, when its expression is valid. -/
def compiled (E : RegExps) (rule : Ignore.Rule) : Option RustRule :=
  (E.compile rule.body).map fun regex => { negative := rule.negative, regex := .ok regex }

theorem isBlankUnit_eq (u : UInt16) : isBlankUnit u = Ignore.jsCodePoints.contains u := by
  have hvalid : ∀ u ∈ Ignore.jsCodePoints, Nat.isValidChar u.toNat := by simp [Ignore.jsCodePoints, Nat.isValidChar]
  have hmem : u.toNat ∈ Ignore.jsCodePoints.map UInt16.toNat ↔ u ∈ Ignore.jsCodePoints :=
    List.mem_map_of_injective fun a b h => UInt16.toNat_inj.mp h
  rw [Bool.eq_iff_iff, isBlankUnit, show isEcmascriptWhitespace u.toNat =
    (Ignore.jsCodePoints.map UInt16.toNat).contains u.toNat from rfl]
  simp only [Bool.and_eq_true, List.contains_iff_mem, hmem, decide_eq_true_eq]
  exact ⟨fun h => h.2, fun h => ⟨hvalid u h, h⟩⟩

theorem unescape_eq (body : Units) : unescape body = Ignore.unescape 35 (Ignore.unescape 33 body) := by
  match body with
  | [] => rfl
  | [first] => simp [unescape, Ignore.unescape]
  | first :: second :: rest =>
    simp only [unescape, Ignore.unescape, List.isPrefixOf]
    grind [Ignore.unescape, Ignore.backslash]

theorem skips_eq (pattern : Units) :
    (pattern.isEmpty || pattern.all isBlankUnit || pattern.head? == some 35 ||
      Ignore.invalidTrailingBackslash pattern) = !checkPattern pattern := by
  have hall : pattern.all isBlankUnit = pattern.all Ignore.jsCodePoints.contains :=
    congrArg pattern.all (funext isBlankUnit_eq)
  rw [hall, checkPattern, Ignore.blankLine]
  cases pattern.isEmpty <;> cases pattern.all Ignore.jsCodePoints.contains <;>
    cases Ignore.invalidTrailingBackslash pattern <;> cases hhead : pattern.head? == some 35 <;> simp_all [bne]

/-- A pattern that is checked and compiles is a rule more, and no other. -/
theorem addUnits_snd (pattern : Units) :
    (self.addUnits E pattern).2 =
      match if checkPattern pattern then compiled E (createRule pattern) else none with
      | none => self
      | some rule => { rules := self.rules ++ [rule] } := by
  rw [addUnits, skips_eq, compiled, createRule, ← unescape_eq]
  cases checkPattern pattern with
  | false => rfl
  | true =>
    simp only [Bool.not_true, Bool.false_eq_true, if_false, if_true]
    cases E.compile (unescape (if (pattern.head? == some 33) = true then pattern.tail else pattern)) <;> rfl

/-- The rules that compiled, folded, are all of them. -/
theorem oneRules_eq_foldRules (rules : List Ignore.Rule) (path : Units) {ignored unignored : Bool}
    (hflags : ¬ (ignored = true ∧ unignored = true)) :
    oneRules (path.map E.canonicalize) (rules.filterMap (compiled E)) ignored unignored =
      .ok (foldRules E path rules ignored) := by
  induction rules generalizing ignored unignored with
  | nil => rfl
  | cons rule rules ih =>
    have hfold : foldRules E path (rule :: rules) ignored =
        foldRules E path rules (if rule.matches E path then !rule.negative else ignored) := rfl
    rw [hfold]
    cases hcompile : E.compile rule.body with
    | none =>
      have hmatches : rule.matches E path = false := by rw [Ignore.Rule.matches, hcompile]
      rw [List.filterMap_cons_none (by rw [compiled, hcompile]; rfl), hmatches]
      exact ih hflags
    | some regex =>
      have hmatches : rule.matches E path = regex (path.map E.canonicalize) := by rw [Ignore.Rule.matches, hcompile]
      rw [List.filterMap_cons_some (by rw [compiled, hcompile]; rfl), hmatches, oneRules]
      by_cases hskip : (unignored == rule.negative && ignored != unignored ||
          rule.negative && !ignored && !unignored) = true
      · rw [if_pos hskip]
        have hsame : (if regex (path.map E.canonicalize) then !rule.negative else ignored) = ignored := by
          cases ignored <;> cases unignored <;> simp_all
        rw [hsame]
        exact ih hflags
      · rw [if_neg hskip]
        by_cases hfound : regex (path.map E.canonicalize) = true
        · simp only [hfound, if_true]
          exact ih (by simp)
        · simp only [hfound]
          exact ih hflags

/-! ## Calls -/

/-- The calls of `add_units` for some patterns. -/
def addAll (E : RegExps) (self : RustIgnore) (patterns : List (List CodePoint)) : RustIgnore :=
  patterns.foldl (fun self pattern => (self.addUnits E (toUnits pattern)).2) self

/-- The object after a call. -/
def call (E : RegExps) (self : RustIgnore) : IgnoreCall → RustIgnore
  | .add patterns => self.addAll E patterns
  | .addValid patterns => self.addAll E patterns
  | .ignores path => (self.ignores E (toUnits path)).2

/-- The object after a history of calls. -/
def after (E : RegExps) (history : List IgnoreCall) : RustIgnore := history.foldl (call E) {}

/-- The object has the rules that compile, and each cached flag is the one that
they give without a cache. -/
structure Remembers (E : RegExps) (rules : List Ignore.Rule) (object : RustIgnore) : Prop where
  rules_eq : object.rules = rules.filterMap (compiled E)
  sound : Inherited.Sound parents id (object.one E) object.cache

variable {rules : List Ignore.Rule}

theorem Remembers.empty : Remembers E [] {} := ⟨rfl, Inherited.Sound.empty⟩

theorem Remembers.addUnits (h : Remembers E rules self) (pattern : Units) :
    Remembers E (rules ++ (if checkPattern pattern then [createRule pattern] else []))
      (self.addUnits E pattern).2 := by
  rw [addUnits_snd]
  cases checkPattern pattern with
  | false => simpa using h
  | true =>
    simp only [if_true]
    cases hrule : compiled E (createRule pattern) with
    | none =>
      have hrules : self.rules = (rules ++ [createRule pattern]).filterMap (compiled E) := by
        simp [List.filterMap_append, h.rules_eq, hrule]
      exact ⟨hrules, h.sound⟩
    | some rule =>
      have hrules : self.rules ++ [rule] = (rules ++ [createRule pattern]).filterMap (compiled E) := by
        simp [List.filterMap_append, h.rules_eq, hrule]
      exact ⟨hrules, Inherited.Sound.empty⟩

theorem Remembers.addAll (h : Remembers E rules self) (patterns : List (List CodePoint)) :
    Remembers E (rules ++ checkedRules patterns) (self.addAll E patterns) := by
  induction patterns generalizing rules self with
  | nil => simpa [checkedRules, RustIgnore.addAll] using h
  | cons pattern patterns ih =>
    have hchecked : checkedRules (pattern :: patterns) =
        (if checkPattern (toUnits pattern) then [createRule (toUnits pattern)] else []) ++ checkedRules patterns := by
      simp only [checkedRules, List.map_cons, List.filter_cons]
      split <;> rfl
    rw [hchecked, ← List.append_assoc]
    exact ih (h.addUnits (toUnits pattern))

/-- A rule that does not compile makes no difference. -/
theorem Remembers.of_filter {added : List Ignore.Rule} (h : Remembers E (rules ++ added) self) :
    Remembers E (rules ++ added.filter (·.Compiles E)) self := by
  refine ⟨?_, h.sound⟩
  rw [h.rules_eq, List.filterMap_append, List.filterMap_append, List.filterMap_filter]
  congr 2
  funext rule
  by_cases hcompiles : rule.Compiles E
  · simp [hcompiles]
  · have hnone : E.compile rule.body = none := by simpa [Ignore.Rule.Compiles] using hcompiles
    simp [hcompiles, compiled, hnone]

/-- A query is answered by the definition without a cache, and keeps the
object's rules and its cache in step. -/
theorem Remembers.ignores (h : Remembers E rules self) {path : Units} (hpath : rejects path = false) :
    (self.ignores E path).1 = .ok (ignored E rules path) ∧ Remembers E rules (self.ignores E path).2 := by
  have hown (path : Units) : ∃ flag, self.one E path = .ok flag ∧ id flag = foldRules E path rules false := by
    rw [one, h.rules_eq, oneRules_eq_foldRules rules path (by simp)]
    exact ⟨_, rfl, rfl⟩
  obtain ⟨hvalue, hsound⟩ := Inherited.consult_spec h.sound path
  obtain ⟨flag, hflag, heq⟩ := @Inherited.settled_verdict _ _ _ parents id _ _ hown path
  rw [ignores_eq_consult hpath]
  exact ⟨(hvalue.trans hflag).trans (congrArg Except.ok heq), h.rules_eq, hsound⟩

theorem Remembers.call (h : Remembers E rules self) (c : IgnoreCall) :
    Remembers E (rules ++ c.rules E) (self.call E c) := by
  cases c with
  | add patterns => exact h.addAll patterns
  | addValid patterns => exact (h.addAll patterns).of_filter
  | ignores path =>
    simp only [RustIgnore.call, IgnoreCall.rules, List.append_nil]
    by_cases hpath : rejects (toUnits path) = false
    · exact (h.ignores hpath).2
    · simpa [RustIgnore.ignores, hpath] using h

theorem remembers_after (history : List IgnoreCall) : Remembers E (rulesAdded E history) (after E history) := by
  induction history using List.reverseRecOn with
  | nil => exact Remembers.empty
  | append_singleton history c ih => simpa [after, rulesAdded] using ih.call c

end RustIgnore

/-! ## The law of both bindings -/

namespace Ignore

variable {E : RegExps}

theorem rootRelative_of_not_rejects {path : Units} (h : RustIgnore.rejects path = false) : RootRelative path := by
  cases path with
  | nil => cases h
  | cons unit rest =>
    refine ⟨by simp, ?_⟩
    rintro heq
    obtain rfl : unit = slash := by simpa using heq
    simp [RustIgnore.rejects] at h

theorem toUnits_append_slash (d x : List CodePoint) : toUnits (d ++ 47 :: x) = toUnits d ++ slash :: toUnits x := by
  simp only [Utf16.toUnits, List.flatMap_append, List.flatMap_cons]
  rfl

theorem rulesAdded_queries (history : List IgnoreCall) (queries : List (List CodePoint)) :
    rulesAdded E (history ++ queries.map .ignores) = rulesAdded E history := by
  have hnone : rulesAdded E (queries.map .ignores) = [] := by simp [rulesAdded, List.flatMap_map, IgnoreCall.rules]
  rw [rulesAdded, List.flatMap_append]
  exact (congrArg _ hnone).trans (List.append_nil _)

/-- After every history of calls, a query is answered by the definition without
a cache; what is ignored as a directory is ignored with all below it, also
after more queries; and the Rust binding answers every path that it takes as
the Python one. -/
theorem ignores_lawful (E : RegExps) (history : List IgnoreCall) (hadd : ∀ c ∈ history, c.Compiles E) :
    (∀ path : List CodePoint, RootRelative (toUnits path) →
      ((after E history).ignores E path).1 = .ok (ignored E (rulesAdded E history) (toUnits path))) ∧
    (∀ (d x : List CodePoint) (queries : List (List CodePoint)), (∀ s ∈ (toUnits d).splitOn slash, s ≠ []) →
      segments (toUnits x) ≠ [] → ((after E history).ignores E (d ++ [47])).1 = .ok true →
      ((after E (history ++ queries.map .ignores)).ignores E (d ++ 47 :: x)).1 = .ok true) ∧
    ∀ path : List CodePoint, RustIgnore.rejects (toUnits path) = false →
      ((RustIgnore.after E history).ignores E (toUnits path)).1 =
          .ok (ignored E (rulesAdded E history) (toUnits path)) ∧
        ((after E history).ignores E path).1 = .ok (ignored E (rulesAdded E history) (toUnits path)) := by
  have hcompiles := rulesAdded_compiles hadd
  have hpython (path : List CodePoint) (hpath : segments (toUnits path) ≠ []) :=
    (remembers_after (E := E) history).ignores hcompiles hpath
  refine ⟨fun path hpath => hpython path hpath.segments_ne_nil, ?_, fun path hpath => ⟨?_, ?_⟩⟩
  · intro d x queries hd hx hdir
    have hdsegments : segments (toUnits d) ≠ [] := by
      rw [segments, List.filter_eq_self.mpr fun s hs => by simpa using hd s hs]
      exact List.splitOn_ne_nil slash (toUnits d)
    rw [hpython _ (by simp [toUnits_append_slash, segments_append_slash, hdsegments])] at hdir
    rw [toUnits_append_slash] at hdir
    have hlater := remembers_after (E := E) (history ++ queries.map .ignores)
    rw [rulesAdded_queries] at hlater
    rw [hlater.ignores hcompiles (by simp [toUnits_append_slash, segments_append_slash, hdsegments]),
      toUnits_append_slash]
    exact congrArg Except.ok (Inherited.inherits_of_below (Except.ok.inj hdir) (below_of_splitOn hd hx))
  · exact ((RustIgnore.remembers_after (E := E) history).ignores hpath).1
  · exact hpython path (rootRelative_of_not_rejects hpath).segments_ne_nil

/-- The expressions of patterns that have a separator and no wildcard: the
body, and the body as a directory. -/
def exact : RegExps where
  compile body := some fun subject => subject == body || subject == body ++ [slash]
  canonicalize := id

/-- Below the ignored directory `a/b/`, the rule `!a/b/c` takes nothing back. -/
theorem ignores_lawful_kept :
    ((after exact [.addValid [[97, 47, 98]], .add [[33, 97, 47, 98, 47, 99]]]).ignores exact
        ([97, 47, 98] ++ [47])).1 = .ok true ∧
      ((after exact ([.addValid [[97, 47, 98]], .add [[33, 97, 47, 98, 47, 99]]] ++ [[97]].map .ignores)).ignores exact
        ([97, 47, 98] ++ 47 :: [99])).1 = .ok true := by
  have hadd : ∀ c ∈ [IgnoreCall.addValid [[97, 47, 98]], .add [[33, 97, 47, 98, 47, 99]]], c.Compiles exact := by
    simp [IgnoreCall.Compiles, Rule.Compiles, exact]
  obtain ⟨hquery, hbelow, -⟩ := ignores_lawful exact _ hadd
  have hdir : ignored exact (rulesAdded exact [.addValid [[97, 47, 98]], .add [[33, 97, 47, 98, 47, 99]]])
      (toUnits ([97, 47, 98] ++ [47])) = true := by
    rw [ignored, Inherited.inherits_child (p := [97, 47]) (by decide), Inherited.inherits_root (by decide)]
    decide
  have hquery := (hquery ([97, 47, 98] ++ [47]) (by decide)).trans (congrArg Except.ok hdir)
  exact ⟨hquery, hbelow [97, 47, 98] [99] [[97]] (by decide) (by decide) hquery⟩

/-- A directory path with a repeated separator is not the parent of a path that
begins with it: `a//b/` is ignored by the pattern `a//b`, and `a//b/c` is not. -/
theorem repeated_separator_not_closed :
    ((after exact [.addValid [[97, 47, 47, 98]]]).ignores exact ([97, 47, 47, 98] ++ [47])).1 = .ok true ∧
      ((after exact [.addValid [[97, 47, 47, 98]]]).ignores exact ([97, 47, 47, 98] ++ 47 :: [99])).1 = .ok false := by
  have hcompiles : ∀ rule ∈ rulesAdded exact [.addValid [[97, 47, 47, 98]]], rule.Compiles exact := by decide
  have hremembers := remembers_after (E := exact) [.addValid [[97, 47, 47, 98]]]
  constructor
  · rw [hremembers.ignores hcompiles (by decide), ignored,
      Inherited.inherits_child (p := [97, 47]) (by decide), Inherited.inherits_root (by decide)]
    decide
  · rw [hremembers.ignores hcompiles (by decide), ignored,
      Inherited.inherits_child (p := [97, 47, 98, 47]) (by decide),
      Inherited.inherits_child (p := [97, 47]) (by decide), Inherited.inherits_root (by decide)]
    decide

end Ignore

end MinionAgent
