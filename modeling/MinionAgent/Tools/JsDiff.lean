import MinionAgent.Library.EditScript
import Mathlib.Data.List.Chain

/-!
# MinionAgent.Tools.JsDiff

The search for a line diff (`tools/builtin/_jsdiff.py`): one path for each
diagonal `oldPos - newPos`, each round one edit longer, and the components the
path that reaches both ends is built into.

The search never looks inside a token, so tokens are of any type. A component
keeps the tokens the source joins into its `value`, and `previous` is the rest
of the list a component stands in.

* `Path.At` — what a path at a diagonal says: its components lead to its end;
* `Path.At.addToPath_remove`, `Path.At.addToPath_add`, `extractCommon_at` — each
  step of the search keeps that;
* `buildValues_tokens` — and the components built from it give both lists.
-/

namespace MinionAgent

variable {α : Type*}

namespace JsDiff

open EditScript

/-! ## Components and paths -/

/-- `Component`, with the tokens its `value` joins. -/
structure Component (α : Type*) where
  count : Nat
  added : Bool
  removed : Bool
  tokens : List α := []

/-- The kind of a component: neither flag is unchanged. -/
def Component.kind (c : Component α) : Bool × Bool := (c.added, c.removed)

/-- `value`, where tokens are texts. -/
def Component.value {β : Type*} (c : Component (List β)) : List β := c.tokens.flatten

/-- `_Path`: the last old position done, and the components, the last one first. -/
structure Path (α : Type*) where
  oldPos : Int
  last : List (Component α)

/-- `_add_to_path`. -/
def addToPath (path : Path α) (added removed : Bool) (oldPosInc : Int) : Path α :=
  match path.last with
  | last :: previous =>
    if last.added = added ∧ last.removed = removed then
      { oldPos := path.oldPos + oldPosInc
        last := { count := last.count + 1, added := added, removed := removed } :: previous }
    else
      { oldPos := path.oldPos + oldPosInc
        last := { count := 1, added := added, removed := removed } :: last :: previous }
  | [] => { oldPos := path.oldPos + oldPosInc, last := [{ count := 1, added := added, removed := removed }] }

/-- `xs[i]`: a negative index counts from the end. -/
def item (xs : List α) (i : Int) : Option α :=
  if 0 ≤ i then xs[i.toNat]? else if 0 ≤ xs.length + i then xs[(xs.length + i).toNat]? else none

section search

variable [DecidableEq α]

/-- The loop of `_extract_common`: how many tokens the lists have in common from here on. -/
def commonRun (new old : List α) (oldPos newPos : Int) : Nat :=
  if newPos + 1 < new.length ∧ oldPos + 1 < old.length ∧ item old (oldPos + 1) = item new (newPos + 1) then
    commonRun new old (oldPos + 1) (newPos + 1) + 1
  else 0
termination_by (new.length - newPos).toNat

/-- `_extract_common`: the path after the common tokens, and its new position. -/
def extractCommon (path : Path α) (new old : List α) (diagonal : Int) : Path α × Int :=
  let newPos := path.oldPos - diagonal
  let common := commonRun new old path.oldPos newPos
  ({ oldPos := path.oldPos + common
     last := if common = 0 then path.last
       else { count := common, added := false, removed := false } :: path.last },
    newPos + common)

end search

/-- The second loop of `_build_values`. -/
def fillValues (new old : List α) (newPos oldPos : Nat) : List (Component α) → List (Component α)
  | [] => []
  | c :: cs =>
    if !c.removed then
      { c with tokens := (new.drop newPos).take c.count } ::
        fillValues new old (newPos + c.count) (if !c.added then oldPos + c.count else oldPos) cs
    else
      { c with tokens := (old.drop oldPos).take c.count } :: fillValues new old newPos (oldPos + c.count) cs

/-- `_build_values`. -/
def buildValues (last : List (Component α)) (new old : List α) : List (Component α) :=
  fillValues new old 0 0 last.reverse

/-! ## The search -/

/-- What the rounds of `diff_tokens` carry: `best`, and the bounds, where `none` is infinite. -/
structure Search (α : Type*) where
  best : Int → Option (Path α)
  minDiagonal : Option Int
  maxDiagonal : Option Int

/-- `best[diagonal] = path`. -/
def setBest (best : Int → Option (Path α)) (diagonal : Int) (path : Option (Path α)) : Int → Option (Path α) :=
  fun k => if k = diagonal then path else best k

/-- `remove_path`, where `can_remove`. -/
def canRemove (old : List α) (removePath : Option (Path α)) : Option (Path α) :=
  removePath.filter fun p => p.oldPos + 1 < old.length

/-- `add_path`, where `can_add`. -/
def canAdd (new : List α) (diagonal : Int) (addPath : Option (Path α)) : Option (Path α) :=
  addPath.filter fun p => 0 ≤ p.oldPos - diagonal ∧ p.oldPos - diagonal < new.length

/-- The branch choice: what `base` is made of, unless there is nothing to make it of. -/
def chooseBase : Option (Path α) → Option (Path α) → Option (Path α)
  | none, none => none
  | none, some addPath => some (addToPath addPath true false 0)
  | some removePath, none => some (addToPath removePath false true 1)
  | some removePath, some addPath =>
    if removePath.oldPos < addPath.oldPos then some (addToPath addPath true false 0)
    else some (addToPath removePath false true 1)

/-- `max_diagonal = min(max_diagonal, diagonal - 1)`. -/
def lowerMax (maxDiagonal : Option Int) (diagonal : Int) : Option Int :=
  some (maxDiagonal.elim (diagonal - 1) fun m => min m (diagonal - 1))

/-- `min_diagonal = max(min_diagonal, diagonal + 1)`. -/
def raiseMin (minDiagonal : Option Int) (diagonal : Int) : Option Int :=
  some (minDiagonal.elim (diagonal + 1) fun m => max m (diagonal + 1))

section search

variable [DecidableEq α]

/-- The body of the loop over diagonals: it ends the search with a path to both ends, or goes on. -/
def visit (old new : List α) (diagonal : Int) (s : Search α) : Except (Path α) (Search α) :=
  let removePath := s.best (diagonal - 1)
  let addPath := s.best (diagonal + 1)
  let best := if removePath.isSome then setBest s.best (diagonal - 1) none else s.best
  match chooseBase (canRemove old removePath) (canAdd new diagonal addPath) with
  | none => .ok { s with best := setBest best diagonal none }
  | some base =>
    let (base, newPos) := extractCommon base new old diagonal
    if base.oldPos + 1 ≥ old.length ∧ newPos + 1 ≥ new.length then .error base
    else
      .ok {
        best := setBest best diagonal (some base)
        maxDiagonal := if base.oldPos + 1 ≥ old.length then lowerMax s.maxDiagonal diagonal else s.maxDiagonal
        minDiagonal := if newPos + 1 ≥ new.length then raiseMin s.minDiagonal diagonal else s.minDiagonal }

/-- `int(max(min_diagonal, -edit_length))`. -/
def firstDiagonal (minDiagonal : Option Int) (editLength : Nat) : Int :=
  minDiagonal.elim (-editLength) fun m => max m (-editLength)

/-- `min(max_diagonal, edit_length)`. -/
def lastDiagonal (maxDiagonal : Option Int) (editLength : Nat) : Int :=
  maxDiagonal.elim editLength fun m => min m editLength

/-- The loop over diagonals, which reads its upper bound anew at each of them. -/
def sweep (old new : List α) (editLength : Nat) (diagonal : Int) (s : Search α) : Except (Path α) (Search α) :=
  if diagonal ≤ lastDiagonal s.maxDiagonal editLength then
    match visit old new diagonal s with
    | .error path => .error path
    | .ok s' => sweep old new editLength (diagonal + 2) s'
  else .ok s
termination_by (editLength + 1 - diagonal).toNat
decreasing_by
  have h : diagonal ≤ lastDiagonal s.maxDiagonal editLength := ‹_›
  have hle : diagonal ≤ editLength := by
    cases hm : s.maxDiagonal <;> simp only [lastDiagonal, hm, Option.elim] at h <;> omega
  omega

/-- `while True`, for at most `fuel` rounds. -/
def rounds (old new : List α) : Nat → Nat → Search α → Option (Path α)
  | 0, _, _ => none
  | fuel + 1, editLength, s =>
    match sweep old new editLength (firstDiagonal s.minDiagonal editLength) s with
    | .error path => some path
    | .ok s => rounds old new fuel (editLength + 1) s

/-- `diff_tokens`, for at most `fuel` rounds. -/
def diffTokensWithin (fuel : Nat) (old new : List α) : Option (List (Component α)) :=
  let (seed, newPos) := extractCommon { oldPos := -1, last := [] } new old 0
  if seed.oldPos + 1 ≥ old.length ∧ newPos + 1 ≥ new.length then some (buildValues seed.last new old)
  else
    (rounds old new fuel 1
      { best := setBest (fun _ => none) 0 (some seed), minDiagonal := none, maxDiagonal := none }).map
      fun path => buildValues path.last new old

/-- `diff_tokens`: deleting everything and inserting everything always finishes. -/
def diffTokens (old new : List α) : List (Component α) :=
  (diffTokensWithin (old.length + new.length) old new).getD []

end search

/-! ## What a path says -/

/-- No component of this kind is the last one. -/
def Fresh (kind : Bool × Bool) (cs : List (Component α)) : Prop := ∀ c ∈ cs.head?, c.kind ≠ kind

/-- The components, the last one first, lead to the point `(x, y)` with `e` edits. -/
inductive Trace (old new : List α) : List (Component α) → Nat → Nat → Nat → Prop
  | start : Trace old new [] 0 0 0
  | keep {cs e x y n} (h : Trace old new cs e x y) (hf : Fresh (false, false) cs) (h0 : 0 < n)
      (ha : ∀ i < n, Agree old new (x + i) (y + i)) :
      Trace old new ({ count := n, added := false, removed := false } :: cs) e (x + n) (y + n)
  | remove {cs e x y n} (h : Trace old new cs e x y) (hf : Fresh (false, true) cs) (h0 : 0 < n)
      (ho : x + n ≤ old.length) :
      Trace old new ({ count := n, added := false, removed := true } :: cs) (e + n) (x + n) y
  | add {cs e x y n} (h : Trace old new cs e x y) (hf : Fresh (true, false) cs) (h0 : 0 < n)
      (hn : y + n ≤ new.length) :
      Trace old new ({ count := n, added := true, removed := false } :: cs) (e + n) x (y + n)

namespace Trace

variable {old new : List α} {cs : List (Component α)} {e x y : Nat}

/-- What the components lead to is reached. -/
theorem reaches (h : Trace old new cs e x y) : Reaches old new e x y := by
  induction h with
  | start => exact .start
  | keep h hf h0 ha ih => exact ih.keeps ha
  | remove h hf h0 ho ih => exact ih.removes ho
  | add h hf h0 hn ih => exact ih.adds hn

end Trace

/-- A path at a diagonal: its components lead to its end. -/
structure Path.At (old new : List α) (diagonal : Int) (p : Path α) (e x y : Nat) : Prop where
  trace : Trace old new p.last e x y
  oldPos : p.oldPos = x - 1
  diagonal : diagonal = x - y

namespace Path.At

variable {old new : List α} {diagonal : Int} {p : Path α} {e x y : Nat}

/-- A removal takes a path to the next diagonal. -/
theorem addToPath_remove (h : p.At old new (diagonal - 1) e x y) (ho : x < old.length) :
    (addToPath p false true 1).At old new diagonal (e + 1) (x + 1) y ∧
      Fresh (false, false) (addToPath p false true 1).last := by
  obtain ⟨pos, last⟩ := p
  obtain ⟨ht, hp, hd⟩ := h
  simp only at ht hp
  have hd' : diagonal = ((x + 1 : Nat) : Int) - y := by omega
  cases last with
  | nil =>
    have ht' : Trace old new [{ count := 1, added := false, removed := true }] (e + 1) (x + 1) y :=
      ht.remove (by simp [Fresh]) Nat.one_pos ho
    exact ⟨⟨ht', by simp [addToPath]; omega, hd'⟩, by simp [addToPath, Fresh, Component.kind]⟩
  | cons c cs =>
    by_cases hc : c.added = false ∧ c.removed = true
    · -- the last component grows
      cases ht with
      | keep h hf h0 ha => simp at hc
      | add h hf h0 hn => simp at hc
      | @remove _ e x y n h hf h0 ho' =>
        have ht' : Trace old new ({ count := n + 1, added := false, removed := true } :: cs) (e + n + 1)
            (x + n + 1) y := h.remove hf n.succ_pos ho
        exact ⟨⟨by simpa [addToPath] using ht', by simp [addToPath]; omega, hd'⟩,
          by simp [addToPath, Fresh, Component.kind]⟩
    · have hf : Fresh (false, true) (c :: cs) := by simpa [Fresh, Component.kind] using hc
      have ht' := ht.remove hf Nat.one_pos (show x + 1 ≤ old.length from ho)
      exact ⟨⟨by simpa [addToPath, hc] using ht', by simp [addToPath, hc]; omega, hd'⟩,
        by simp [addToPath, hc, Fresh, Component.kind]⟩

/-- An addition takes a path to the diagonal before. -/
theorem addToPath_add (h : p.At old new (diagonal + 1) e x y) (hn : y < new.length) :
    (addToPath p true false 0).At old new diagonal (e + 1) x (y + 1) ∧
      Fresh (false, false) (addToPath p true false 0).last := by
  obtain ⟨pos, last⟩ := p
  obtain ⟨ht, hp, hd⟩ := h
  simp only at ht hp
  have hd' : diagonal = (x : Int) - (y + 1 : Nat) := by omega
  cases last with
  | nil =>
    have ht' : Trace old new [{ count := 1, added := true, removed := false }] (e + 1) x (y + 1) :=
      ht.add (by simp [Fresh]) Nat.one_pos hn
    exact ⟨⟨ht', by simp [addToPath]; omega, hd'⟩, by simp [addToPath, Fresh, Component.kind]⟩
  | cons c cs =>
    by_cases hc : c.added = true ∧ c.removed = false
    · cases ht with
      | keep h hf h0 ha => simp at hc
      | remove h hf h0 ho => simp at hc
      | @add _ e x y n h hf h0 hn' =>
        have ht' : Trace old new ({ count := n + 1, added := true, removed := false } :: cs) (e + n + 1) x
            (y + n + 1) := h.add hf n.succ_pos hn
        exact ⟨⟨by simpa [addToPath] using ht', by simp [addToPath]; omega, hd'⟩,
          by simp [addToPath, Fresh, Component.kind]⟩
    · have hf : Fresh (true, false) (c :: cs) := by simpa [Fresh, Component.kind] using hc
      have ht' := ht.add hf Nat.one_pos (show y + 1 ≤ new.length from hn)
      exact ⟨⟨by simpa [addToPath, hc] using ht', by simp [addToPath, hc]; omega, hd'⟩,
        by simp [addToPath, hc, Fresh, Component.kind]⟩

end Path.At

/-! ## Common tokens -/

section search

@[simp] theorem item_natCast (xs : List α) (i : Nat) : item xs i = xs[i]? := by
  simp [item]

variable [DecidableEq α] {old new : List α} {diagonal : Int} {p : Path α} {e x y : Nat}

/-- The run of common tokens is all of it. -/
theorem commonRun_spec (new old : List α) (x y : Nat) :
    (∀ i < commonRun new old (x - 1) (y - 1), Agree old new (x + i) (y + i)) ∧
      ¬Agree old new (x + commonRun new old (x - 1) (y - 1)) (y + commonRun new old (x - 1) (y - 1)) := by
  induction hm : new.length - y generalizing x y with
  | zero =>
    have hc : commonRun new old (x - 1) (y - 1) = 0 := by
      rw [commonRun, if_neg fun h => by omega]
    rw [hc]
    exact ⟨fun i hi => absurd hi (Nat.not_lt_zero i), fun ha => by have := ha.lt; omega⟩
  | succ m ih =>
    rw [commonRun]
    simp only [Int.sub_add_cancel, item_natCast]
    split
    · rename_i hcond
      obtain ⟨hy, hx, heq⟩ := hcond
      have hx : x < old.length := by omega
      have hagree : Agree old new x y := ⟨old[x], List.getElem?_eq_getElem hx, by
        rw [← heq]; exact List.getElem?_eq_getElem hx⟩
      obtain ⟨hrun, hend⟩ := ih (x + 1) (y + 1) (by omega)
      rw [Int.natCast_succ, Int.natCast_succ, Int.add_sub_cancel, Int.add_sub_cancel] at hrun hend
      refine ⟨fun i hi => ?_, ?_⟩
      · cases i with
        | zero => exact hagree
        | succ i => simpa only [Nat.add_assoc, Nat.add_comm 1] using hrun i (by omega)
      · simpa only [Nat.add_assoc, Nat.add_comm 1] using hend
    · rename_i hcond
      refine ⟨fun i hi => absurd hi (Nat.not_lt_zero i), fun ha => hcond ?_⟩
      obtain ⟨a, ho, hn⟩ := ha
      have := (List.getElem?_eq_some_iff.1 ho).1
      have := (List.getElem?_eq_some_iff.1 hn).1
      exact ⟨by omega, by omega, ho.trans hn.symm⟩

/-- After the common tokens a path is at the first point, from its own on, where the lists differ. -/
theorem extractCommon_at (h : p.At old new diagonal e x y) (hf : Fresh (false, false) p.last) :
    ∃ n, (extractCommon p new old diagonal).1.At old new diagonal e (x + n) (y + n) ∧
      (extractCommon p new old diagonal).2 = (y + n : Nat) - 1 ∧ ¬Agree old new (x + n) (y + n) := by
  obtain ⟨ht, hp, hd⟩ := h
  obtain ⟨hrun, hend⟩ := commonRun_spec new old x y
  have hy : (x : Int) - 1 - diagonal = y - 1 := by omega
  refine ⟨commonRun new old (x - 1) (y - 1), ⟨?_, ?_, ?_⟩, ?_, hend⟩
  · simp only [extractCommon, hp, hy]
    split
    · rename_i h0
      simpa only [h0, Nat.add_zero] using ht
    · rename_i h0
      exact ht.keep hf (Nat.pos_of_ne_zero h0) hrun
  · simp only [extractCommon, hp, hy]
    omega
  · omega
  · simp only [extractCommon, hp, hy]
    omega

end search

/-! ## The components -/

/-- The tokens of the unchanged and the removed components. -/
def oldTokens (cs : List (Component α)) : List α := (cs.filter fun c => !c.added).flatMap Component.tokens

/-- The tokens of the unchanged and the added components. -/
def newTokens (cs : List (Component α)) : List α := (cs.filter fun c => !c.removed).flatMap Component.tokens

/-- How many tokens the added and the removed components have. -/
def editCount (cs : List (Component α)) : Nat :=
  ((cs.filter fun c => c.added || c.removed).flatMap Component.tokens).length

/-- A list of components is a diff of two lists. -/
structure IsDiff (old new : List α) (cs : List (Component α)) : Prop where
  oldTokens : oldTokens cs = old
  newTokens : newTokens cs = new
  alternate : cs.IsChain fun c d => c.kind ≠ d.kind
  count : ∀ c ∈ cs, c.count = c.tokens.length
  exclusive : ∀ c ∈ cs, ¬(c.added = true ∧ c.removed = true)
  nonempty : ∀ c ∈ cs, c.tokens ≠ []

@[simp] theorem editCount_append (cs ds : List (Component α)) :
    editCount (cs ++ ds) = editCount cs + editCount ds := by simp [editCount]

@[simp] theorem fillValues_kind (new old : List α) (newPos oldPos : Nat) (cs : List (Component α)) :
    (fillValues new old newPos oldPos cs).map Component.kind = cs.map Component.kind := by
  fun_induction fillValues new old newPos oldPos cs <;> simp_all [Component.kind]

namespace Trace

variable {old new : List α} {cs : List (Component α)} {e x y : Nat}

/-- The components already there do not depend on the ones after them, which start at `(x, y)`. -/
theorem fillValues_append (h : Trace old new cs e x y) (ds : List (Component α)) :
    fillValues new old 0 0 (cs.reverse ++ ds) = fillValues new old 0 0 cs.reverse ++ fillValues new old y x ds := by
  induction h generalizing ds with
  | start => rfl
  | @keep cs e x y n h hf h0 ha ih =>
    rw [List.reverse_cons, List.append_assoc, List.singleton_append, ih, ih, List.append_assoc]
    rfl
  | @remove cs e x y n h hf h0 ho ih =>
    rw [List.reverse_cons, List.append_assoc, List.singleton_append, ih, ih, List.append_assoc]
    rfl
  | @add cs e x y n h hf h0 hn ih =>
    rw [List.reverse_cons, List.append_assoc, List.singleton_append, ih, ih, List.append_assoc]
    rfl

/-- The last component is built where the others end. -/
theorem buildValues_cons (h : Trace old new cs e x y) (c : Component α) :
    buildValues (c :: cs) new old = buildValues cs new old ++ fillValues new old y x [c] := by
  rw [buildValues, List.reverse_cons, h.fillValues_append, buildValues]

/-- No two components in a row are of one kind. -/
theorem alternate (h : Trace old new cs e x y) : cs.IsChain fun c d => d.kind ≠ c.kind := by
  have cons {c : Component α} {cs : List (Component α)} (hf : Fresh c.kind cs)
      (hc : cs.IsChain fun c d => d.kind ≠ c.kind) : (c :: cs).IsChain fun c d => d.kind ≠ c.kind := by
    cases cs with
    | nil => exact .singleton c
    | cons d ds => exact .cons_cons (hf d rfl) hc
  induction h with
  | start => exact .nil
  | keep h hf h0 ha ih => exact cons hf ih
  | remove h hf h0 ho ih => exact cons hf ih
  | add h hf h0 hn ih => exact cons hf ih

/-- What the lists have in common from a point on is the same slice of both. -/
theorem take_drop_of_agree {n : Nat} (ha : ∀ i < n, Agree old new (x + i) (y + i)) :
    (new.drop y).take n = (old.drop x).take n := by
  refine List.ext_getElem? fun i => ?_
  by_cases hi : i < n
  · obtain ⟨a, ho, hn⟩ := ha i hi
    simp [hi, ho, hn]
  · rw [List.getElem?_take_eq_none (by omega), List.getElem?_take_eq_none (by omega)]

/-- Each component built has as many tokens as it counts, and is of one kind. -/
def Built (c : Component α) : Prop :=
  c.count = c.tokens.length ∧ ¬(c.added = true ∧ c.removed = true) ∧ c.tokens ≠ []

/-- The components built give what the path has done of both lists, in its edits. -/
theorem buildValues_tokens (h : Trace old new cs e x y) :
    oldTokens (buildValues cs new old) = old.take x ∧ newTokens (buildValues cs new old) = new.take y ∧
      editCount (buildValues cs new old) = e ∧ ∀ c ∈ buildValues cs new old, Built c := by
  have built {c : Component α} {n : Nat} (hl : c.tokens.length = n) (hc : c.count = n) (h0 : 0 < n)
      (hk : ¬(c.added = true ∧ c.removed = true)) : Built c :=
    ⟨hc.trans hl.symm, hk, List.ne_nil_of_length_pos (by omega)⟩
  induction h with
  | start => exact ⟨rfl, rfl, rfl, fun c hc => absurd hc List.not_mem_nil⟩
  | @keep cs e x y n h hf h0 ha ih =>
    obtain ⟨ihOld, ihNew, ihEdit, ihBuilt⟩ := ih
    have hn : y + n ≤ new.length := (h.reaches.keeps ha).le.2
    have hl : ((new.drop y).take n).length = n := by rw [List.length_take, List.length_drop]; omega
    rw [h.buildValues_cons, List.take_add, List.take_add, ← take_drop_of_agree ha]
    refine ⟨by simp [fillValues, oldTokens, ← ihOld], by simp [fillValues, newTokens, ← ihNew], ?_,
      List.forall_mem_append.2 ⟨ihBuilt, List.forall_mem_singleton.2 (built hl rfl h0 (by simp))⟩⟩
    rw [editCount_append, ihEdit]
    rfl
  | @remove cs e x y n h hf h0 ho ih =>
    obtain ⟨ihOld, ihNew, ihEdit, ihBuilt⟩ := ih
    have hl : ((old.drop x).take n).length = n := by rw [List.length_take, List.length_drop]; omega
    rw [h.buildValues_cons, List.take_add]
    refine ⟨by simp [fillValues, oldTokens, ← ihOld], by simp [fillValues, newTokens, ← ihNew], ?_,
      List.forall_mem_append.2 ⟨ihBuilt, List.forall_mem_singleton.2 (built hl rfl h0 (by simp))⟩⟩
    rw [editCount_append, ihEdit]
    show e + ((old.drop x).take n ++ []).length = e + n
    rw [List.append_nil, hl]
  | @add cs e x y n h hf h0 hn ih =>
    obtain ⟨ihOld, ihNew, ihEdit, ihBuilt⟩ := ih
    have hl : ((new.drop y).take n).length = n := by rw [List.length_take, List.length_drop]; omega
    rw [h.buildValues_cons, List.take_add]
    refine ⟨by simp [fillValues, oldTokens, ← ihOld], by simp [fillValues, newTokens, ← ihNew], ?_,
      List.forall_mem_append.2 ⟨ihBuilt, List.forall_mem_singleton.2 (built hl rfl h0 (by simp))⟩⟩
    rw [editCount_append, ihEdit]
    show e + ((new.drop y).take n ++ []).length = e + n
    rw [List.append_nil, hl]

/-- A path to both ends is built into a diff, as long in edits. -/
theorem buildValues_isDiff (h : Trace old new cs e old.length new.length) :
    IsDiff old new (buildValues cs new old) ∧ editCount (buildValues cs new old) = e := by
  have hkinds : ((buildValues cs new old).map Component.kind).IsChain (· ≠ ·) := by
    rw [buildValues, fillValues_kind, List.isChain_map, List.isChain_reverse]
    exact h.alternate
  obtain ⟨hold, hnew, hedit, hbuilt⟩ := h.buildValues_tokens
  rw [List.take_length] at hold hnew
  exact ⟨⟨hold, hnew, (List.isChain_map _).1 hkinds, fun c hc => (hbuilt c hc).1, fun c hc => (hbuilt c hc).2.1,
    fun c hc => (hbuilt c hc).2.2⟩, hedit⟩

end Trace

end JsDiff

end MinionAgent
