import MinionAgent.Library.Surrogates
import MinionAgent.Execution.PathResolve

/-!
# MinionAgent.Execution.PathText

Paths as strings of code points beside paths in UTF-16 units: separators and dots
are one unit, so that a path has the same components either way.

* `decode16_at` — a string falls apart at a unit that is no surrogate;
* `components_decode16`, `text_decode16`, `eval_decode16` — components, their text
  and their evaluation are the same in both.
-/

namespace MinionAgent.PathResolve

open Rfc8259 (CodePoint codePoint)
open PathStack (push up eval Plain components text)

/-- Units that are no surrogates. -/
def Single (unit : UInt16) : Prop := unit.toNat < 0xD800

instance : DecidablePred Single := fun _ => inferInstanceAs (Decidable (_ < _))

theorem single_of_all {front : PathUnits} (h : (front.all fun unit => decide (Single unit)) = true) :
    ∀ unit ∈ front, Single unit :=
  fun unit hunit => of_decide_eq_true (List.all_eq_true.mp h unit hunit)

/-- The code point of a unit that stands alone. -/
def point (unit : UInt16) : CodePoint := codePoint unit.toNat

@[simp] theorem point_inj {unit unit' : UInt16} : point unit = point unit' ↔ unit = unit' := by
  refine ⟨fun h => ?_, fun h => h ▸ rfl⟩
  have hval := congrArg Fin.val h
  have hlt := unit.toNat_lt
  have hlt' := unit'.toNat_lt
  rw [point, point, codePoint_val (by omega), codePoint_val (by omega)] at hval
  exact UInt16.toNat_inj.mp hval

theorem decode16_at {unit : UInt16} (h : Single unit) (front rest : PathUnits) :
    decode16 (front ++ unit :: rest) = decode16 front ++ point unit :: decode16 rest :=
  decode16_append front (.inl h) rest

@[simp] theorem decode16_eq_nil {units : PathUnits} : decode16 units = [] ↔ units = [] :=
  ⟨fun h => decode16_injective (h.trans (show [] = decode16 [] from rfl)), fun h => h ▸ rfl⟩

/-- A separator, among code points. -/
def sepPoint (windows : Bool) (c : CodePoint) : Bool := c == point 47 || (windows && c == point 92)

theorem single_of_sep {unit : UInt16} {windows : Bool} (h : sep unit windows = true) : Single unit := by
  simp only [sep, Bool.or_eq_true, Bool.and_eq_true, beq_iff_eq] at h
  cases h with
  | inl hslash => subst hslash; decide
  | inr hback => rw [hback.2]; decide

@[simp] theorem sepPoint_point (unit : UInt16) (windows : Bool) : sepPoint windows (point unit) = sep unit windows := by
  have hiff : ∀ other : UInt16, (point unit == point other) = (unit == other) := by
    intro other
    rw [Bool.eq_iff_iff, beq_iff_eq, beq_iff_eq, point_inj]
  rw [sepPoint, sep, hiff, hiff]

/-- A string has no separator its units do not have. -/
theorem not_sepPoint_decode16 {path : PathUnits} {windows : Bool} (h : ∀ unit ∈ path, sep unit windows = false) :
    ∀ c ∈ decode16 path, sepPoint windows c = false := by
  intro c hc
  by_contra hsep
  rw [Bool.not_eq_false] at hsep
  have hunit : ∃ unit : UInt16, c = point unit ∧ sep unit windows = true := by
    simp only [sepPoint, Bool.or_eq_true, Bool.and_eq_true, beq_iff_eq] at hsep
    cases hsep with
    | inl hslash => exact ⟨47, hslash, rfl⟩
    | inr hback => exact ⟨92, hback.2, by rw [hback.1]; rfl⟩
  obtain ⟨unit, rfl, hunit⟩ := hunit
  have hmem : unit ∈ Utf16.toUnits (decode16 path) :=
    List.mem_flatMap.mpr ⟨_, hc, by rw [point, unitsOf_unit]; exact List.mem_singleton_self unit⟩
  rw [toUnits_decode16] at hmem
  exact Bool.false_ne_true ((h unit hmem).symm.trans hunit)

/-- A path either has no separator, or a first one. -/
theorem exists_first_sep (path : PathUnits) (windows : Bool) :
    (∀ unit ∈ path, sep unit windows = false) ∨
      ∃ front unit rest, path = front ++ unit :: rest ∧ (∀ u ∈ front, sep u windows = false) ∧
        sep unit windows = true := by
  induction path with
  | nil => exact .inl (by simp)
  | cons first path ih =>
    cases hfirst : sep first windows with
    | true => exact .inr ⟨[], first, path, rfl, by simp, hfirst⟩
    | false =>
      cases ih with
      | inl hnone => exact .inl (List.forall_mem_cons.mpr ⟨hfirst, hnone⟩)
      | inr hsome =>
        obtain ⟨front, unit, rest, rfl, hfront, hunit⟩ := hsome
        exact .inr ⟨first :: front, unit, rest, rfl, List.forall_mem_cons.mpr ⟨hfirst, hfront⟩, hunit⟩

variable {windows : Bool}

/-- A path has the same components either way. -/
theorem components_decode16 (path : PathUnits) :
    components (sepPoint windows) (decode16 path) = (components (sep · windows) path).map decode16 := by
  induction hlength : path.length using Nat.strong_induction_on generalizing path with
  | _ length ih =>
    cases exists_first_sep path windows with
    | inl hnone =>
      rw [PathStack.components_eq_singleton (not_sepPoint_decode16 hnone), PathStack.components_eq_singleton hnone]
      rfl
    | inr hsome =>
      obtain ⟨front, unit, rest, rfl, hfront, hunit⟩ := hsome
      have hrest := ih rest.length (by simp at hlength; omega) rest rfl
      have hpoint : sepPoint windows (point unit) = true := (sepPoint_point unit windows).trans hunit
      rw [decode16_at (single_of_sep hunit), PathStack.components_append hpoint, hrest,
        @PathStack.components_append _ (sep · windows) _ hunit, List.map_append,
        PathStack.components_eq_singleton (not_sepPoint_decode16 hfront), PathStack.components_eq_singleton hfront]
      rfl

/-- The text of components is the same either way. -/
theorem text_decode16 {unit : UInt16} (h : Single unit) (cs : List PathUnits) :
    decode16 (text unit cs) = text (point unit) (cs.map decode16) := by
  induction cs with
  | nil => rfl
  | cons c cs ih =>
    by_cases hcs : cs = []
    · subst hcs
      simp
    · rw [PathStack.text_cons hcs, decode16_at h, ih, List.map_cons, PathStack.text_cons (by simpa using hcs)]

/-- Components are evaluated the same either way. -/
theorem eval_decode16 (above : Bool) (cs : List PathUnits) :
    eval (point 46) above (cs.map decode16) = (eval 46 above cs).map decode16 :=
  PathStack.eval_map decode16_injective rfl (decode16_cons (.inl (by decide)) [])
    ((decode16_cons (.inl (by decide)) [46]).trans (congrArg _ (decode16_cons (.inl (by decide)) []))) cs

end MinionAgent.PathResolve
