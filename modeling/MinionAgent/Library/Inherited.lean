import Mathlib.Logic.Relation
import Mathlib.Logic.Function.Basic

/-!
# MinionAgent.Library.Inherited

Verdicts that go down a hierarchy.  Each key has at most one parent; a parent's
verdict that is settled is the verdict of every key below, and any other key
is judged on its own.

* `verdict` — the definition, without a memory;
* `consult` — the same recursion over a memory of earlier verdicts;
* `consult_spec` — a memory of true verdicts changes no verdict and stays true;
* `descend_climb` — the recursion as a loop up and a loop down;
* `inherits` — yes-or-no verdicts, where a yes is settled.
-/

namespace Inherited

/-- A hierarchy: each parent is of a smaller rank. -/
structure Hierarchy (K : Type) where
  parent : K → Option K
  rank : K → Nat
  rank_parent : ∀ {k p : K}, parent k = some p → rank p < rank k

variable {K V E : Type} (H : Hierarchy K) (settled : V → Bool) (own : K → Except E V)

/-- The verdict on a key: the one of its parent when it is settled, and else
the key's own. -/
def verdict (k : K) : Except E V :=
  match _h : H.parent k with
  | none => own k
  | some p =>
    match verdict p with
    | .error e => .error e
    | .ok v => if settled v then .ok v else own k
termination_by H.rank k
decreasing_by exact H.rank_parent _h

/-- One key lies below another. -/
def Below : K → K → Prop := Relation.TransGen fun p k => H.parent k = some p

variable {H settled own}

theorem verdict_root {k : K} (h : H.parent k = none) : verdict H settled own k = own k := by
  rw [verdict]
  split
  · rfl
  · simp_all

theorem verdict_child {k p : K} (h : H.parent k = some p) :
    verdict H settled own k =
      match verdict H settled own p with
      | .error e => .error e
      | .ok v => if settled v then .ok v else own k := by
  rw [verdict]
  split
  · simp_all
  · next p' hp' =>
    obtain rfl : p = p' := by simpa [h] using hp'
    rfl

/-! ## With a memory -/

section Memory

variable [DecidableEq K] (H settled own)

/-- A memory of a key's verdict, when there is one. -/
def remember (memory : K → Option V) (k : K) : Except E V → Except E V × (K → Option V)
  | .error e => (.error e, memory)
  | .ok v => (.ok v, Function.update memory k (some v))

/-- The recursion that looks a key up first and remembers what it finds. -/
def consult (memory : K → Option V) (k : K) : Except E V × (K → Option V) :=
  match memory k with
  | some v => (.ok v, memory)
  | none =>
    match _h : H.parent k with
    | none => remember memory k (own k)
    | some p =>
      match consult memory p with
      | (.error e, memory) => (.error e, memory)
      | (.ok w, memory) => remember memory k (if settled w then .ok w else own k)
termination_by H.rank k
decreasing_by exact H.rank_parent _h

/-- What is remembered is true. -/
def Sound (memory : K → Option V) : Prop := ∀ k v, memory k = some v → verdict H settled own k = .ok v

variable {H settled own} {memory : K → Option V}

theorem remember_fst (k : K) (value : Except E V) : (remember memory k value).1 = value := by
  cases value <;> rfl

theorem remember_ok {k : K} {value : Except E V} {v : V} (h : (remember memory k value).1 = .ok v) :
    (remember memory k value).2 k = some v := by
  rw [remember_fst] at h
  subst h
  exact Function.update_self k (some v) memory

theorem consult_known {k : K} {v : V} (h : memory k = some v) : consult H settled own memory k = (.ok v, memory) := by
  rw [consult, h]

theorem consult_root {k : K} (h : memory k = none) (hk : H.parent k = none) :
    consult H settled own memory k = remember memory k (own k) := by
  rw [consult, h]
  simp only
  split
  · rfl
  · simp_all

theorem consult_child {k p : K} (h : memory k = none) (hk : H.parent k = some p) :
    consult H settled own memory k =
      match consult H settled own memory p with
      | (.error e, memory) => (.error e, memory)
      | (.ok w, memory) => remember memory k (if settled w then .ok w else own k) := by
  rw [consult, h]
  simp only
  split
  · simp_all
  · next p' hp' =>
    obtain rfl : p = p' := by simpa [hk] using hp'
    rfl

omit [DecidableEq K] in
theorem Sound.empty : Sound H settled own fun _ => none := by
  intro k v h
  cases h

theorem Sound.remember {k : K} {value : Except E V} (h : Sound H settled own memory)
    (hk : verdict H settled own k = value) : Sound H settled own (remember memory k value).2 := by
  cases value with
  | error e => exact h
  | ok v =>
    intro k' v' h'
    by_cases heq : k' = k
    · subst heq
      rw [show (Inherited.remember memory k' (.ok v : Except E V)).2 k' = some v from Function.update_self ..] at h'
      rw [hk, Option.some.inj h']
    · exact h k' v' ((Function.update_of_ne heq ..).symm.trans h')

/-- A verdict that is given is remembered. -/
theorem consult_remembers {k : K} {v : V} (h : (consult H settled own memory k).1 = .ok v) :
    (consult H settled own memory k).2 k = some v := by
  cases hk : memory k with
  | some w =>
    rw [consult_known hk] at h ⊢
    exact hk.trans (congrArg some (Except.ok.inj h))
  | none =>
    cases hp : H.parent k with
    | none =>
      rw [consult_root hk hp] at h ⊢
      exact remember_ok h
    | some p =>
      rw [consult_child hk hp] at h ⊢
      split at h
      · cases h
      · exact remember_ok h

/-- A memory of true verdicts is as good as none, and one lookup leaves it so. -/
theorem consult_spec (hmemory : Sound H settled own memory) (k : K) :
    (consult H settled own memory k).1 = verdict H settled own k ∧
      Sound H settled own (consult H settled own memory k).2 := by
  induction hn : H.rank k using Nat.strongRecOn generalizing k with
  | _ n ih =>
    cases hk : memory k with
    | some v =>
      rw [consult_known hk]
      exact ⟨(hmemory k v hk).symm, hmemory⟩
    | none =>
      cases hp : H.parent k with
      | none =>
        rw [consult_root hk hp, remember_fst]
        exact ⟨(verdict_root hp).symm, hmemory.remember (verdict_root hp)⟩
      | some p =>
        obtain ⟨hvalue, hsound⟩ := ih _ (hn ▸ H.rank_parent hp) p rfl
        have hchild := @verdict_child K V E H settled own k p hp
        rw [← hvalue] at hchild
        rw [consult_child hk hp]
        cases hconsult : consult H settled own memory p with
        | mk value memory' =>
          rw [hconsult] at hchild hsound
          cases value with
          | error e => exact ⟨hchild.symm, hsound⟩
          | ok w => exact ⟨(remember_fst ..).trans hchild.symm, hsound.remember hchild⟩

/-! ### As two loops -/

variable (H) in
/-- The keys from one upward that have no remembered verdict, and the
remembered one above them. -/
def climb (memory : K → Option V) (k : K) : List K × Option V :=
  match memory k with
  | some v => ([], some v)
  | none =>
    match _h : H.parent k with
    | none => ([k], none)
    | some p => (k :: (climb memory p).1, (climb memory p).2)
termination_by H.rank k
decreasing_by all_goals exact H.rank_parent _h

variable (settled own) in
/-- The verdict on a key below one with a verdict, if it is below one. -/
def judge (above : Option V) (k : K) : Except E V :=
  match above with
  | none => own k
  | some w => if settled w then .ok w else own k

variable (settled own) in
/-- The keys judged one after another, each below the one before. -/
def descend (memory : K → Option V) : List K → Option V → Except E (Option V) × (K → Option V)
  | [], above => (.ok above, memory)
  | k :: keys, above =>
    match remember memory k (judge settled own above k) with
    | (.error e, memory) => (.error e, memory)
    | (.ok v, memory) => descend memory keys (some v)

omit [DecidableEq K] in
theorem climb_known {k : K} {v : V} (h : memory k = some v) : climb H memory k = ([], some v) := by
  rw [climb, h]

omit [DecidableEq K] in
theorem climb_root {k : K} (h : memory k = none) (hk : H.parent k = none) : climb H memory k = ([k], none) := by
  rw [climb, h]
  simp only
  split
  · rfl
  · simp_all

omit [DecidableEq K] in
theorem climb_child {k p : K} (h : memory k = none) (hk : H.parent k = some p) :
    climb H memory k = (k :: (climb H memory p).1, (climb H memory p).2) := by
  rw [climb, h]
  simp only
  split
  · simp_all
  · next p' hp' =>
    obtain rfl : p = p' := by simpa [hk] using hp'
    rfl

theorem descend_append (memory : K → Option V) (keys : List K) (k : K) (above : Option V) :
    descend settled own memory (keys ++ [k]) above =
      match descend settled own memory keys above with
      | (.error e, memory) => (.error e, memory)
      | (.ok above, memory) => descend settled own memory [k] above := by
  induction keys generalizing memory above with
  | nil => rfl
  | cons key keys ih =>
    simp only [List.cons_append, descend]
    split
    · rfl
    · exact ih _ _

/-- The loop up and the loop down are the recursion. -/
theorem descend_climb (memory : K → Option V) (k : K) :
    descend settled own memory (climb H memory k).1.reverse (climb H memory k).2 =
      ((consult H settled own memory k).1.map some, (consult H settled own memory k).2) := by
  induction hn : H.rank k using Nat.strongRecOn generalizing k with
  | _ n ih =>
    cases hk : memory k with
    | some v =>
      rw [climb_known hk, consult_known hk]
      rfl
    | none =>
      cases hp : H.parent k with
      | none =>
        rw [climb_root hk hp, consult_root hk hp]
        show descend settled own memory [k] none = _
        simp only [descend, judge]
        cases own k <;> rfl
      | some p =>
        rw [climb_child hk hp, consult_child hk hp, List.reverse_cons, descend_append,
          ih _ (hn ▸ H.rank_parent hp) p rfl]
        cases consult H settled own memory p with
        | mk value memory' =>
          cases value with
          | error e => rfl
          | ok w =>
            show descend settled own memory' [k] (some w) = _
            simp only [descend, judge]
            cases (if settled w then .ok w else own k) <;> rfl

end Memory

/-! ## Yes and no -/

variable (H)

/-- A key has what its parent has, or has it of its own. -/
def inherits (has : K → Bool) (k : K) : Bool :=
  match _h : H.parent k with
  | none => has k
  | some p => inherits has p || has k
termination_by H.rank k
decreasing_by exact H.rank_parent _h

variable {H} {has : K → Bool}

theorem inherits_root {k : K} (h : H.parent k = none) : inherits H has k = has k := by
  rw [inherits]
  split
  · rfl
  · simp_all

theorem inherits_child {k p : K} (h : H.parent k = some p) : inherits H has k = (inherits H has p || has k) := by
  rw [inherits]
  split
  · simp_all
  · next p' hp' =>
    obtain rfl : p = p' := by simpa [h] using hp'
    rfl

theorem inherits_of_below {d k : K} (hd : inherits H has d = true) (hk : Below H d k) : inherits H has k = true := by
  induction hk with
  | single hparent => simp [inherits_child hparent, hd]
  | tail _ hparent ih => simp [inherits_child hparent, ih]

/-- Verdicts that are all given say yes where the keys' own ones are inherited
as a yes. -/
theorem settled_verdict (hown : ∀ k, ∃ v, own k = .ok v ∧ settled v = has k) (k : K) :
    ∃ v, verdict H settled own k = .ok v ∧ settled v = inherits H has k := by
  induction hn : H.rank k using Nat.strongRecOn generalizing k with
  | _ n ih =>
    obtain ⟨v, hv, hsettled⟩ := hown k
    cases hp : H.parent k with
    | none => exact ⟨v, (verdict_root hp).trans hv, hsettled.trans (inherits_root hp).symm⟩
    | some p =>
      obtain ⟨w, hw, hwsettled⟩ := ih _ (hn ▸ H.rank_parent hp) p rfl
      rw [verdict_child hp, inherits_child hp, hw, ← hwsettled]
      by_cases hyes : settled w = true
      · exact ⟨w, if_pos hyes, by simp [hyes]⟩
      · exact ⟨v, (if_neg hyes).trans hv, by simp [hyes, hsettled]⟩

end Inherited
