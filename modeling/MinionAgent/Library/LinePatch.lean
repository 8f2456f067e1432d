import Mathlib.Data.List.Basic

/-!
# MinionAgent.Library.LinePatch

A patch of a list of lines: hunks, each at a place, whose body keeps, removes
and adds lines. What a hunk keeps or removes is checked when it is applied, and
so are both of its places.

* `Cuts` — the hunks are cut from one run of edits, which leaves out only lines
  that are kept;
* `Cuts.apply` — then they apply to what the edits start from, and give what
  they end with;
* `Cuts.swap` — and, each reversed, they are cut from the reversed edits.
-/

namespace LinePatch

variable {α : Type*}

/-- What happens to a line. -/
inductive Mark where
  | context
  | remove
  | add
  deriving DecidableEq

/-- A line that is added is removed by the reversed edit. -/
def Mark.swap : Mark → Mark
  | .context => .context
  | .remove => .add
  | .add => .remove

/-- A marked line. -/
abbrev Edit (α : Type*) : Type _ := Mark × α

/-- The lines some edits keep or remove. -/
def oldSide (edits : List (Edit α)) : List α := (edits.filter fun e => e.1 ≠ .add).map Prod.snd

/-- The lines they keep or add. -/
def newSide (edits : List (Edit α)) : List α := (edits.filter fun e => e.1 ≠ .remove).map Prod.snd

/-- The reversed edits. -/
def swap (edits : List (Edit α)) : List (Edit α) := edits.map fun e => (e.1.swap, e.2)

@[simp] theorem oldSide_append (as bs : List (Edit α)) : oldSide (as ++ bs) = oldSide as ++ oldSide bs := by
  simp [oldSide]

@[simp] theorem newSide_append (as bs : List (Edit α)) : newSide (as ++ bs) = newSide as ++ newSide bs := by
  simp [newSide]

@[simp] theorem swap_append (as bs : List (Edit α)) : swap (as ++ bs) = swap as ++ swap bs := by
  simp [swap]

@[simp] theorem oldSide_swap (edits : List (Edit α)) : oldSide (swap edits) = newSide edits := by
  induction edits with
  | nil => rfl
  | cons e edits ih =>
    obtain ⟨mark, line⟩ := e
    cases mark <;> simpa [oldSide, newSide, swap, Mark.swap] using ih

@[simp] theorem newSide_swap (edits : List (Edit α)) : newSide (swap edits) = oldSide edits := by
  induction edits with
  | nil => rfl
  | cons e edits ih =>
    obtain ⟨mark, line⟩ := e
    cases mark <;> simpa [oldSide, newSide, swap, Mark.swap] using ih

/-- Some lines that are kept. -/
def kept (lines : List α) : List (Edit α) := lines.map fun line => (.context, line)

@[simp] theorem oldSide_kept (lines : List α) : oldSide (kept lines) = lines := by
  simp [oldSide, kept, List.filter_map, Function.comp_def]

@[simp] theorem newSide_kept (lines : List α) : newSide (kept lines) = lines := by
  simp [newSide, kept, List.filter_map, Function.comp_def]

@[simp] theorem swap_kept (lines : List α) : swap (kept lines) = kept lines := by
  simp [swap, kept, Mark.swap]

@[simp] theorem kept_append (as bs : List α) : kept (as ++ bs) = kept as ++ kept bs := List.map_append

/-! ## Hunks -/

/-- A hunk: how many lines are before it on either side, and its body. -/
structure Hunk (α : Type*) where
  oldAt : Nat
  newAt : Nat
  body : List (Edit α)

/-- The hunk the other way. -/
def Hunk.swap (h : Hunk α) : Hunk α := { oldAt := h.newAt, newAt := h.oldAt, body := LinePatch.swap h.body }

section apply

variable [DecidableEq α]

/-- The body of a hunk, applied to lines: what it puts out, and the lines behind it. -/
def applyBody : List (Edit α) → List α → Option (List α × List α)
  | [], lines => some ([], lines)
  | (.add, added) :: edits, lines => (applyBody edits lines).map fun (out, rest) => (added :: out, rest)
  | (.remove, removed) :: edits, line :: lines => if line = removed then applyBody edits lines else none
  | (.context, context) :: edits, line :: lines =>
    if line = context then (applyBody edits lines).map fun (out, rest) => (line :: out, rest) else none
  | _ :: _, [] => none

/-- The hunks, applied in turn to the lines behind the first `oldDone`, of which `newDone` are put out. -/
def apply : List (Hunk α) → Nat → Nat → List α → Option (List α)
  | [], _, _, lines => some lines
  | h :: hs, oldDone, newDone, lines =>
    let gap := h.oldAt - oldDone
    if oldDone ≤ h.oldAt ∧ gap ≤ lines.length ∧ h.newAt = newDone + gap then
      (applyBody h.body (lines.drop gap)).bind fun (out, rest) =>
        (apply hs (h.oldAt + (oldSide h.body).length) (h.newAt + (newSide h.body).length) rest).map fun tail =>
          lines.take gap ++ out ++ tail
    else none

/-- A body applies to the lines it keeps or removes. -/
theorem applyBody_eq (edits : List (Edit α)) (rest : List α) :
    applyBody edits (oldSide edits ++ rest) = some (newSide edits, rest) := by
  induction edits with
  | nil => rfl
  | cons e edits ih =>
    obtain ⟨mark, line⟩ := e
    cases mark with
    | context =>
      show applyBody ((.context, line) :: edits) (line :: (oldSide edits ++ rest)) = _
      rw [applyBody, if_pos rfl, ih]
      rfl
    | remove =>
      show applyBody ((.remove, line) :: edits) (line :: (oldSide edits ++ rest)) = _
      rw [applyBody, if_pos rfl, ih]
      rfl
    | add =>
      show applyBody ((.add, line) :: edits) (oldSide edits ++ rest) = _
      rw [applyBody, ih]
      rfl

end apply

/-! ## Hunks cut from edits -/

/-- The hunks hold all of the edits but some lines that are kept, each at its place, where `o` and
`n` lines are done before the first edit. -/
inductive Cuts : Nat → Nat → List (Edit α) → List (Hunk α) → Prop
  | done {o n gap} : Cuts o n (kept gap) []
  | hunk {o n gap body edits hs}
      (h : Cuts (o + gap.length + (oldSide body).length) (n + gap.length + (newSide body).length) edits hs) :
      Cuts o n (kept gap ++ body ++ edits) ({ oldAt := o + gap.length, newAt := n + gap.length, body := body } :: hs)

namespace Cuts

variable {o n : Nat} {edits : List (Edit α)} {hs : List (Hunk α)}

/-- Lines that are kept may come before. -/
theorem kept_before {gap : List α} (h : Cuts (o + gap.length) (n + gap.length) edits hs) :
    Cuts o n (kept gap ++ edits) hs := by
  cases h with
  | @done _ _ gap' => exact kept_append gap gap' ▸ .done
  | @hunk _ _ gap' body edits hs h =>
    have hcut : Cuts o n (kept (gap ++ gap') ++ body ++ edits)
        ({ oldAt := o + (gap ++ gap').length, newAt := n + (gap ++ gap').length, body := body } :: hs) :=
      .hunk (by simpa only [List.length_append, Nat.add_assoc] using h)
    simpa only [kept_append, List.length_append, List.append_assoc, Nat.add_assoc] using hcut

/-- A hunk may begin where the edits do. -/
theorem hunk_here {body : List (Edit α)}
    (h : Cuts (o + (oldSide body).length) (n + (newSide body).length) edits hs) :
    Cuts o n (body ++ edits) ({ oldAt := o, newAt := n, body := body } :: hs) := @hunk _ o n [] body edits hs h

/-- Hunks cut from edits apply. -/
theorem apply [DecidableEq α] (h : Cuts o n edits hs) : apply hs o n (oldSide edits) = some (newSide edits) := by
  induction h with
  | done => simp [LinePatch.apply]
  | @hunk o n gap body edits hs h ih =>
    have hgap : o + gap.length - o = gap.length := by omega
    rw [LinePatch.apply]
    simp only [hgap]
    rw [if_pos ⟨by omega, by simp, trivial⟩]
    simp only [oldSide_append, newSide_append, oldSide_kept, newSide_kept, List.append_assoc, List.drop_left,
      List.take_left, applyBody_eq, Option.bind_some, ih, Option.map_some]

/-- The reversed hunks are cut from the reversed edits. -/
theorem swap (h : Cuts o n edits hs) : Cuts n o (LinePatch.swap edits) (hs.map Hunk.swap) := by
  induction h with
  | done =>
    rw [swap_kept]
    exact .done
  | @hunk o n gap body edits hs h ih =>
    rw [swap_append, swap_append, swap_kept]
    exact .hunk (by simpa using ih)

end Cuts

end LinePatch
