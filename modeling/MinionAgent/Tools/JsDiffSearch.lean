import MinionAgent.Tools.JsDiff

/-!
# MinionAgent.Tools.JsDiffSearch

The search for a line diff ends with a shortest one.

After `e` rounds the table holds, for each diagonal between the bounds, a path
at least as far as every point `e` edits lead to (`Round`). A round keeps that
although it reuses the table it reads: the diagonals it visits are of the other
parity, and what is beyond a bound is beyond a path that has one list done, so
nothing is lost there. Both bounds are kept in step with the parity of the
rounds, since the first diagonal of a round meets the border the last round
met, and so does the last one.

* `visited_far` — a visit goes at least as far as each edit leads;
* `Mid.visit`, `Mid.finish` — what a visit keeps, and what a round ends with;
* `rounds_shortest` — the search finds a path, and none has fewer edits;
* `diffTokens_shortest` — the components are a diff, and a shortest one.
-/

namespace MinionAgent

variable {α : Type*}

namespace JsDiff

open EditScript

/-- The path has the old list done. -/
abbrev Path.OldDone (old : List α) (p : Path α) : Prop := p.oldPos + 1 ≥ old.length

/-- The path, at a diagonal, has the new list done. -/
abbrev Path.NewDone (new : List α) (diagonal : Int) (p : Path α) : Prop := p.oldPos - diagonal + 1 ≥ new.length

/-- A path that `edits` edits, or fewer, lead to. -/
def Path.Within (old new : List α) (edits : Nat) (diagonal : Int) (p : Path α) : Prop :=
  ∃ e x y, e ≤ edits ∧ p.At old new diagonal e x y

/-- At this diagonal the path is beyond `start`, and all that agrees from there on. -/
structure Path.Beyond (old new : List α) (diagonal : Int) (p : Path α) (start : Int) : Prop where
  le : start ≤ p.oldPos + 1
  run : ∀ x y n : Nat, (x : Int) - y = diagonal → x ≤ start → (∀ i < n, Agree old new (x + i) (y + i)) →
    x + n ≤ p.oldPos + 1

namespace Path.Within

variable {old new : List α} {edits edits' : Nat} {diagonal : Int} {p : Path α}

theorem mono (h : p.Within old new edits diagonal) (he : edits ≤ edits') : p.Within old new edits' diagonal := by
  obtain ⟨e, x, y, hle, hat⟩ := h
  exact ⟨e, x, y, hle.trans he, hat⟩

/-- A path is in the grid, and its diagonal at most its edits away. -/
theorem bounds (h : p.Within old new edits diagonal) :
    (-edits ≤ diagonal ∧ diagonal ≤ edits) ∧ (0 ≤ p.oldPos + 1 ∧ p.oldPos + 1 ≤ old.length) ∧
      0 ≤ p.oldPos - diagonal + 1 ∧ p.oldPos - diagonal + 1 ≤ new.length := by
  obtain ⟨e, x, y, hle, hat⟩ := h
  have := hat.trace.reaches.le
  have := hat.trace.reaches.diagonal
  have := hat.oldPos
  have := hat.diagonal
  omega

/-- A path with both lists done leads to the end. -/
theorem trace (h : p.Within old new edits diagonal) (ho : p.OldDone old) (hn : p.NewDone new diagonal) :
    ∃ e ≤ edits, Trace old new p.last e old.length new.length := by
  obtain ⟨e, x, y, hle, hat⟩ := h
  have := hat.trace.reaches.le
  have := hat.oldPos
  have := hat.diagonal
  obtain rfl : x = old.length := by omega
  obtain rfl : y = new.length := by omega
  exact ⟨e, hle, hat.trace⟩

end Path.Within

/-! ## The branch choice -/

@[simp] theorem addToPath_oldPos (p : Path α) (added removed : Bool) (oldPosInc : Int) :
    (addToPath p added removed oldPosInc).oldPos = p.oldPos + oldPosInc := by
  unfold addToPath
  split
  · split <;> rfl
  · rfl

/-- What is chosen is a removal or an addition. -/
theorem chooseBase_cases {removePath addPath : Option (Path α)} {base : Path α}
    (h : chooseBase removePath addPath = some base) :
    (∃ p, removePath = some p ∧ base = addToPath p false true 1) ∨
      ∃ p, addPath = some p ∧ base = addToPath p true false 0 := by
  cases removePath <;> cases addPath <;> grind [chooseBase]

/-- And it is at least as far as the removal. -/
theorem chooseBase_remove (p : Path α) (addPath : Option (Path α)) :
    ∃ base, chooseBase (some p) addPath = some base ∧ p.oldPos + 1 ≤ base.oldPos := by
  cases addPath with
  | none => exact ⟨_, rfl, by simp⟩
  | some q =>
    by_cases h : p.oldPos < q.oldPos
    · exact ⟨addToPath q true false 0, if_pos h, by simp; omega⟩
    · exact ⟨addToPath p false true 1, if_neg h, by simp⟩

/-- And as the addition. -/
theorem chooseBase_add (removePath : Option (Path α)) (p : Path α) :
    ∃ base, chooseBase removePath (some p) = some base ∧ p.oldPos ≤ base.oldPos := by
  cases removePath with
  | none => exact ⟨_, rfl, by simp⟩
  | some q =>
    by_cases h : q.oldPos < p.oldPos
    · exact ⟨addToPath p true false 0, if_pos h, by simp⟩
    · exact ⟨addToPath q false true 1, if_neg h, by simp; omega⟩

/-! ## Tables -/

section tables

variable {old new : List α} {edits : Nat} {diagonal : Int} {s : Search α}

/-- At this diagonal the table is at least as far as every point exactly `edits` edits lead to. -/
def Far (old new : List α) (edits : Nat) (best : Int → Option (Path α)) (diagonal : Int) : Prop :=
  ∀ x y : Nat, Reaches old new edits x y → (x : Int) - y = diagonal → ∃ p, best diagonal = some p ∧ x ≤ p.oldPos + 1

/-- What always holds of the table: its paths have at most `edits` edits and one list to do, and a
path with one list done is beyond the bound there. -/
structure Table (old new : List α) (edits : Nat) (s : Search α) : Prop where
  within : ∀ k p, s.best k = some p → p.Within old new edits k ∧ ¬(p.OldDone old ∧ p.NewDone new k)
  oldDone : ∀ k p, s.best k = some p → p.OldDone old → ∃ m, s.maxDiagonal = some m ∧ m < k
  newDone : ∀ k p, s.best k = some p → p.NewDone new k → ∃ m, s.minDiagonal = some m ∧ k < m

/-- After a round of `edits` edits the table is as far as it can be up to one diagonal beyond the
bounds, and a bound is next to a path that has one list done. -/
structure Round (old new : List α) (edits : Nat) (s : Search α) : Prop extends Table old new edits s where
  far : ∀ k, (∀ m, s.minDiagonal = some m → m ≤ k + 1) → (∀ m, s.maxDiagonal = some m → k ≤ m + 1) →
    Far old new edits s.best k
  minDone : ∀ m, s.minDiagonal = some m →
    (m - edits - 1) % 2 = 0 ∧ ∃ p, s.best (m - 1) = some p ∧ p.NewDone new (m - 1)
  maxDone : ∀ m, s.maxDiagonal = some m →
    (m - edits - 1) % 2 = 0 ∧ ∃ p, s.best (m + 1) = some p ∧ p.OldDone old

namespace Round

/-- The lower bound is not beyond the diagonal of the end, nor outside the round. -/
theorem min_bounds (h : Round old new edits s) {m : Int} (hm : s.minDiagonal = some m) :
    m ≤ (old.length : Int) - new.length ∧ -edits ≤ m - 1 ∧ m - 1 ≤ edits := by
  obtain ⟨-, p, hp, hdone⟩ := h.minDone m hm
  obtain ⟨hwithin, hopen⟩ := h.within _ p hp
  have := hwithin.bounds
  have : ¬p.OldDone old := fun ho => hopen ⟨ho, hdone⟩
  omega

/-- Nor is the upper bound. -/
theorem max_bounds (h : Round old new edits s) {m : Int} (hm : s.maxDiagonal = some m) :
    (old.length : Int) - new.length ≤ m ∧ -edits ≤ m + 1 ∧ m + 1 ≤ edits := by
  obtain ⟨-, p, hp, hdone⟩ := h.maxDone m hm
  obtain ⟨hwithin, hopen⟩ := h.within _ p hp
  have := hwithin.bounds
  have : ¬p.NewDone new (m + 1) := fun hn => hopen ⟨hdone, hn⟩
  omega

/-- The end is not reached by a round that goes on. -/
theorem not_reaches (h : Round old new edits s) : ¬Reaches old new edits old.length new.length := by
  intro hreach
  obtain ⟨p, hp, hle⟩ := h.far _ (fun m hm => by have := h.min_bounds hm; omega)
    (fun m hm => by have := h.max_bounds hm; omega) _ _ hreach rfl
  exact (h.within _ p hp).2 ⟨by omega, by omega⟩

end Round

/-- The paths a visit reads. -/
structure Reads (old new : List α) (edits : Nat) (diagonal : Int) (s : Search α) : Prop where
  remove : ∀ p, s.best (diagonal - 1) = some p → p.Within old new edits (diagonal - 1)
  add : ∀ p, s.best (diagonal + 1) = some p → p.Within old new edits (diagonal + 1)

/-- What a visit makes a path of has one edit more. -/
theorem Reads.base_at (h : Reads old new edits diagonal s) {base : Path α}
    (hb : chooseBase (canRemove old (s.best (diagonal - 1))) (canAdd new diagonal (s.best (diagonal + 1))) =
      some base) :
    ∃ e x y, e ≤ edits + 1 ∧ base.At old new diagonal e x y ∧ Fresh (false, false) base.last := by
  obtain ⟨p, hp, rfl⟩ | ⟨p, hp, rfl⟩ := chooseBase_cases hb
  · obtain ⟨hp, ho⟩ := Option.filter_eq_some_iff.1 hp
    obtain ⟨e, x, y, hle, hat⟩ := h.remove p hp
    have := hat.oldPos
    have := of_decide_eq_true ho
    exact ⟨e + 1, x + 1, y, by omega, hat.addToPath_remove (by omega)⟩
  · obtain ⟨hp, hn⟩ := Option.filter_eq_some_iff.1 hp
    obtain ⟨e, x, y, hle, hat⟩ := h.add p hp
    have := hat.oldPos
    have := hat.diagonal
    have := of_decide_eq_true hn
    exact ⟨e + 1, x, y + 1, by omega, hat.addToPath_add (by omega)⟩

end tables

/-! ## One visit -/

section search

variable [DecidableEq α]

/-- The path a visit puts at its diagonal. -/
def visited (old new : List α) (diagonal : Int) (s : Search α) : Option (Path α) :=
  (chooseBase (canRemove old (s.best (diagonal - 1))) (canAdd new diagonal (s.best (diagonal + 1)))).map fun base =>
    (extractCommon base new old diagonal).1

/-- The table after a visit. -/
def bestAfter (old new : List α) (diagonal : Int) (s : Search α) : Int → Option (Path α) :=
  setBest (setBest s.best (diagonal - 1) none) diagonal (visited old new diagonal s)

/-- A visit in terms of the path it puts at its diagonal. -/
theorem visit_eq (old new : List α) (diagonal : Int) (s : Search α) :
    visit old new diagonal s =
      match visited old new diagonal s with
      | none => .ok { s with best := bestAfter old new diagonal s }
      | some p =>
        if p.OldDone old ∧ p.NewDone new diagonal then .error p
        else
          .ok {
            best := bestAfter old new diagonal s
            maxDiagonal := if p.OldDone old then lowerMax s.maxDiagonal diagonal else s.maxDiagonal
            minDiagonal := if p.NewDone new diagonal then raiseMin s.minDiagonal diagonal else s.minDiagonal } := by
  have hbest : (if (s.best (diagonal - 1)).isSome then setBest s.best (diagonal - 1) none else s.best) =
      setBest s.best (diagonal - 1) none := by
    split
    · rfl
    · rename_i h
      have hnone : s.best (diagonal - 1) = none := by simpa using h
      funext k
      by_cases hk : k = diagonal - 1 <;> simp [setBest, hk, hnone]
  have hpos (base : Path α) : (extractCommon base new old diagonal).2 =
      (extractCommon base new old diagonal).1.oldPos - diagonal := by
    simp only [extractCommon]
    omega
  simp only [visit, hbest, bestAfter, visited]
  cases chooseBase (canRemove old (s.best (diagonal - 1))) (canAdd new diagonal (s.best (diagonal + 1))) with
  | none => rfl
  | some base => simp only [Option.map_some, hpos]

variable {old new : List α} {edits : Nat} {diagonal : Int} {s : Search α}

/-- The path a visit puts at its diagonal has one edit more. -/
theorem Reads.visited_within (h : Reads old new edits diagonal s) {q : Path α}
    (hq : visited old new diagonal s = some q) : q.Within old new (edits + 1) diagonal := by
  obtain ⟨base, hb, rfl⟩ := Option.map_eq_some_iff.1 hq
  obtain ⟨e, x, y, hle, hat, hf⟩ := h.base_at hb
  obtain ⟨n, hq, -, -⟩ := extractCommon_at hat hf
  exact ⟨e, x + n, y + n, hle, hq⟩

/-- And it is beyond all that agrees from where it was made. -/
theorem Reads.visited_beyond (h : Reads old new edits diagonal s) {base : Path α} {start : Int}
    (hb : chooseBase (canRemove old (s.best (diagonal - 1))) (canAdd new diagonal (s.best (diagonal + 1))) = some base)
    (hstart : start ≤ base.oldPos + 1) :
    ∃ q, visited old new diagonal s = some q ∧ q.Beyond old new diagonal start := by
  obtain ⟨e, x, y, hle, hat, hf⟩ := h.base_at hb
  obtain ⟨n, hq, -, hend⟩ := extractCommon_at hat hf
  have := hat.oldPos
  have := hat.diagonal
  have := hq.oldPos
  refine ⟨_, Option.map_eq_some_iff.2 ⟨base, hb, rfl⟩, by omega, fun x' y' n' hd hx hrun => ?_⟩
  by_contra hlt
  -- the point where the path ends would be one of those that agree
  refine hend ?_
  have hx' : x + n = x' + (x + n - x') := by omega
  have hy' : y + n = y' + (x + n - x') := by omega
  rw [hx', hy']
  exact hrun (x + n - x') (by omega)

/-- A visit goes as far as a removal leads. -/
theorem Reads.visited_remove (h : Reads old new edits diagonal s) {p : Path α} (hp : s.best (diagonal - 1) = some p)
    (ho : ¬p.OldDone old) : ∃ q, visited old new diagonal s = some q ∧ q.Beyond old new diagonal (p.oldPos + 2) := by
  have hr : canRemove old (s.best (diagonal - 1)) = some p :=
    Option.filter_eq_some_iff.2 ⟨hp, decide_eq_true (by omega)⟩
  obtain ⟨base, hb, hle⟩ := chooseBase_remove p (canAdd new diagonal (s.best (diagonal + 1)))
  exact h.visited_beyond (hr ▸ hb) (by omega)

/-- A visit goes as far as an addition leads. -/
theorem Reads.visited_add (h : Reads old new edits diagonal s) {p : Path α} (hp : s.best (diagonal + 1) = some p)
    (hn : ¬p.NewDone new (diagonal + 1)) :
    ∃ q, visited old new diagonal s = some q ∧ q.Beyond old new diagonal (p.oldPos + 1) := by
  have hbounds := (h.add p hp).bounds
  have ha : canAdd new diagonal (s.best (diagonal + 1)) = some p :=
    Option.filter_eq_some_iff.2 ⟨hp, decide_eq_true (by omega)⟩
  obtain ⟨base, hb, hle⟩ := chooseBase_add (canRemove old (s.best (diagonal - 1))) p
  exact h.visited_beyond (ha ▸ hb) (by omega)

/-- A visit goes at least as far as each edit leads, where the paths it reads do and can go on. -/
theorem Reads.visited_far (h : Reads old new edits diagonal s) (hr : Far old new edits s.best (diagonal - 1))
    (ha : Far old new edits s.best (diagonal + 1)) (ho : ∀ p, s.best (diagonal - 1) = some p → ¬p.OldDone old)
    (hn : ∀ p, s.best (diagonal + 1) = some p → ¬p.NewDone new (diagonal + 1)) :
    Far old new (edits + 1) (bestAfter old new diagonal s) diagonal := by
  intro x y hreach hd
  have hq : bestAfter old new diagonal s diagonal = visited old new diagonal s := if_pos rfl
  rw [hq]
  obtain ⟨x₀, y₀, n, rfl, rfl, hrun, hlast⟩ := hreach.last_edit
  obtain ⟨h0, -⟩ | ⟨e, x', he, rfl, hbefore, -⟩ | ⟨e, y', he, rfl, hbefore, -⟩ := hlast
  · omega
  · obtain rfl : edits = e := Nat.succ.inj he
    obtain ⟨p, hp, hle⟩ := hr x' y₀ hbefore (by omega)
    obtain ⟨q, hq, hbeyond⟩ := h.visited_remove hp (ho p hp)
    exact ⟨q, hq, by simpa using hbeyond.run (x' + 1) y₀ n (by omega) (by omega) hrun⟩
  · obtain rfl : edits = e := Nat.succ.inj he
    obtain ⟨p, hp, hle⟩ := ha x₀ y' hbefore (by omega)
    obtain ⟨q, hq, hbeyond⟩ := h.visited_add hp (hn p hp)
    exact ⟨q, hq, by simpa using hbeyond.run x₀ (y' + 1) n (by omega) (by omega) hrun⟩

/-! ## A round -/

/-- In the middle of a round: the diagonals before the next one are visited, the ones a visit still
reads are as the round found them, and each bound is as the round found it or was just met. -/
structure Mid (old new : List α) (edits : Nat) (s₀ s : Search α) (diagonal : Int) : Prop
    extends Table old new (edits + 1) s where
  parity : (diagonal - edits - 1) % 2 = 0
  same : ∀ k, diagonal - 1 ≤ k → (k - edits) % 2 = 0 → s.best k = s₀.best k
  far : ∀ k < diagonal, (∀ m, s₀.minDiagonal = some m → m ≤ k) → Far old new (edits + 1) s.best k
  first : ∀ m, s₀.minDiagonal = some m → m ≤ diagonal
  last : (s.maxDiagonal = s₀.maxDiagonal ∧ ∀ m, s₀.maxDiagonal = some m → diagonal ≤ m) ∨
    s.maxDiagonal = some (diagonal - 3) ∧ ∃ p, s.best (diagonal - 2) = some p ∧ p.OldDone old
  min : (s.minDiagonal = s₀.minDiagonal ∧
      ∀ m, s₀.minDiagonal = some m → diagonal = m ∧ s.maxDiagonal = s₀.maxDiagonal) ∨
    ∃ m, s.minDiagonal = some m ∧ m < diagonal ∧ (m - edits) % 2 = 0 ∧
      (∀ m₀, s₀.minDiagonal = some m₀ → m₀ ≤ m) ∧ ∃ p, s.best (m - 1) = some p ∧ p.NewDone new (m - 1)

namespace Mid

variable {s₀ : Search α}

omit [DecidableEq α] in
/-- A round starts with what the last one ended with. -/
theorem start (h : Round old new edits s) :
    Mid old new edits s s (firstDiagonal s.minDiagonal (edits + 1)) := by
  have hfirst : (firstDiagonal s.minDiagonal (edits + 1) = -(edits + 1) ∧ s.minDiagonal = none) ∨
      s.minDiagonal = some (firstDiagonal s.minDiagonal (edits + 1)) := by
    cases hm : s.minDiagonal with
    | none => exact .inl ⟨rfl, rfl⟩
    | some m =>
      have := h.min_bounds hm
      exact .inr (congrArg some (by simp only [firstDiagonal, Option.elim]; omega))
  refine ⟨⟨fun k p hp => ⟨(h.within k p hp).1.mono (by omega), (h.within k p hp).2⟩, h.oldDone, h.newDone⟩,
    ?_, fun k _ _ => rfl, ?_, ?_, ?_, ?_⟩
  · obtain ⟨hf, -⟩ | hm := hfirst
    · omega
    · exact (h.minDone _ hm).1
  · -- nothing is reached before the first diagonal
    intro k hk hmin x y hreach hd
    obtain ⟨hf, -⟩ | hm := hfirst
    · have := hreach.diagonal
      omega
    · have := hmin _ hm
      omega
  · intro m hm
    obtain ⟨-, hnone⟩ | hsome := hfirst
    · rw [hnone] at hm
      cases hm
    · rw [hsome] at hm
      have := Option.some.inj hm
      omega
  · refine .inl ⟨rfl, fun m hm => ?_⟩
    have := h.max_bounds hm
    obtain ⟨hf, -⟩ | hmin := hfirst
    · omega
    · have := h.min_bounds hmin
      omega
  · refine .inl ⟨rfl, fun m hm => ⟨?_, rfl⟩⟩
    obtain ⟨-, hnone⟩ | hsome := hfirst
    · rw [hnone] at hm
      cases hm
    · rw [hsome] at hm
      exact Option.some.inj hm

omit [DecidableEq α] in
/-- The paths a visit reads are the ones the round found. -/
theorem reads (h : Mid old new edits s₀ s diagonal) (h₀ : Round old new edits s₀) :
    s.best (diagonal - 1) = s₀.best (diagonal - 1) ∧ s.best (diagonal + 1) = s₀.best (diagonal + 1) ∧
      Reads old new edits diagonal s := by
  have hparity := h.parity
  have hr := h.same (diagonal - 1) (by omega) (by omega)
  have ha := h.same (diagonal + 1) (by omega) (by omega)
  exact ⟨hr, ha, fun p hp => (h₀.within _ p (hr ▸ hp)).1, fun p hp => (h₀.within _ p (ha ▸ hp)).1⟩

omit [DecidableEq α] in
/-- While the round goes on it has not met the upper border. -/
theorem max_eq (h : Mid old new edits s₀ s diagonal) (hcont : diagonal ≤ lastDiagonal s.maxDiagonal (edits + 1)) :
    s.maxDiagonal = s₀.maxDiagonal ∧ ∀ m, s₀.maxDiagonal = some m → diagonal ≤ m := by
  obtain hlast | ⟨hmax, -⟩ := h.last
  · exact hlast
  · rw [hmax] at hcont
    simp only [lastDiagonal, Option.elim] at hcont
    omega

/-- The path visited is as far as can be. -/
theorem far_visited (h : Mid old new edits s₀ s diagonal) (h₀ : Round old new edits s₀)
    (hcont : diagonal ≤ lastDiagonal s.maxDiagonal (edits + 1)) :
    Far old new (edits + 1) (bestAfter old new diagonal s) diagonal := by
  obtain ⟨hr, ha, hreads⟩ := h.reads h₀
  obtain ⟨-, hmax⟩ := h.max_eq hcont
  refine hreads.visited_far (fun x y hreach hd => ?_) (fun x y hreach hd => ?_) (fun p hp hdone => ?_)
    fun p hp hdone => ?_
  · rw [hr]
    exact h₀.far _ (fun m hm => by have := h.first m hm; omega) (fun m hm => by have := hmax m hm; omega) x y hreach hd
  · rw [ha]
    exact h₀.far _ (fun m hm => by have := h.first m hm; omega) (fun m hm => by have := hmax m hm; omega) x y hreach hd
  · obtain ⟨m, hm, hlt⟩ := h₀.oldDone _ p (hr ▸ hp) hdone
    have := hmax m hm
    omega
  · obtain ⟨m, hm, hlt⟩ := h₀.newDone _ p (ha ▸ hp) hdone
    have := h.first m hm
    omega

/-- At the lower bound a visit meets the border again. -/
theorem visited_min (h : Mid old new edits s₀ s diagonal) (h₀ : Round old new edits s₀)
    (hm : s₀.minDiagonal = some diagonal) :
    ∃ q, visited old new diagonal s = some q ∧ q.NewDone new diagonal := by
  obtain ⟨hr, -, hreads⟩ := h.reads h₀
  obtain ⟨-, p, hp, hdone⟩ := h₀.minDone _ hm
  obtain ⟨q, hq, hbeyond⟩ := hreads.visited_remove (hr ▸ hp) fun ho => (h₀.within _ p hp).2 ⟨ho, hdone⟩
  have := hbeyond.le
  exact ⟨q, hq, by omega⟩

/-- And at the upper bound. -/
theorem visited_max (h : Mid old new edits s₀ s diagonal) (h₀ : Round old new edits s₀)
    (hm : s₀.maxDiagonal = some diagonal) :
    ∃ q, visited old new diagonal s = some q ∧ q.OldDone old := by
  obtain ⟨-, ha, hreads⟩ := h.reads h₀
  obtain ⟨-, p, hp, hdone⟩ := h₀.maxDone _ hm
  obtain ⟨q, hq, hbeyond⟩ := hreads.visited_add (ha ▸ hp) fun hn => (h₀.within _ p hp).2 ⟨hdone, hn⟩
  have := hbeyond.le
  exact ⟨q, hq, by omega⟩

end Mid

/-- What a visit does to the search, or how it ends it. -/
theorem visit_cases (old new : List α) (diagonal : Int) (s : Search α) :
    (∃ p, visit old new diagonal s = .error p ∧ visited old new diagonal s = some p ∧ p.OldDone old ∧
      p.NewDone new diagonal) ∨
    ∃ s', visit old new diagonal s = .ok s' ∧ s'.best = bestAfter old new diagonal s ∧
      (∀ q, visited old new diagonal s = some q → ¬(q.OldDone old ∧ q.NewDone new diagonal)) ∧
      ((s'.maxDiagonal = s.maxDiagonal ∧ ∀ q, visited old new diagonal s = some q → ¬q.OldDone old) ∨
        (s'.maxDiagonal = lowerMax s.maxDiagonal diagonal ∧
          ∃ q, visited old new diagonal s = some q ∧ q.OldDone old)) ∧
      ((s'.minDiagonal = s.minDiagonal ∧ ∀ q, visited old new diagonal s = some q → ¬q.NewDone new diagonal) ∨
        (s'.minDiagonal = raiseMin s.minDiagonal diagonal ∧
          ∃ q, visited old new diagonal s = some q ∧ q.NewDone new diagonal)) := by
  rw [visit_eq]
  cases visited old new diagonal s with
  | none => exact .inr ⟨_, rfl, rfl, by simp, .inl ⟨rfl, by simp⟩, .inl ⟨rfl, by simp⟩⟩
  | some p =>
    by_cases hboth : p.OldDone old ∧ p.NewDone new diagonal
    · exact .inl ⟨p, if_pos hboth, rfl, hboth⟩
    · refine .inr ⟨_, if_neg hboth, rfl, by simpa using hboth, ?_, ?_⟩
      · by_cases ho : p.OldDone old
        · exact .inr ⟨if_pos ho, p, rfl, ho⟩
        · exact .inl ⟨if_neg ho, by simpa using ho⟩
      · by_cases hn : p.NewDone new diagonal
        · exact .inr ⟨if_pos hn, p, rfl, hn⟩
        · exact .inl ⟨if_neg hn, by simpa using hn⟩

omit [DecidableEq α] in
theorem lowerMax_eq {bound : Option Int} (h : ∀ m, bound = some m → diagonal ≤ m) :
    lowerMax bound diagonal = some (diagonal - 1) := by
  cases bound with
  | none => rfl
  | some m =>
    have := h m rfl
    simp only [lowerMax, Option.elim, Option.some.injEq]
    omega

omit [DecidableEq α] in
theorem raiseMin_eq {bound : Option Int} (h : ∀ m, bound = some m → m ≤ diagonal) :
    raiseMin bound diagonal = some (diagonal + 1) := by
  cases bound with
  | none => rfl
  | some m =>
    have := h m rfl
    simp only [raiseMin, Option.elim, Option.some.injEq]
    omega

/-- A path in the table after a visit is the one visited, or was there and is not read. -/
theorem bestAfter_some {k : Int} {p : Path α} (h : bestAfter old new diagonal s k = some p) :
    (k = diagonal ∧ visited old new diagonal s = some p) ∨ (k ≠ diagonal ∧ s.best k = some p) := by
  by_cases hk : k = diagonal
  · subst hk
    exact .inl ⟨rfl, by simpa [bestAfter, setBest] using h⟩
  · have : k ≠ diagonal - 1 := fun hk' => by
      rw [bestAfter, setBest, if_neg hk, setBest, if_pos hk'] at h
      cases h
    exact .inr ⟨hk, by simpa [bestAfter, setBest, hk, this] using h⟩

theorem bestAfter_eq {k : Int} (h : k ≠ diagonal) (h' : k ≠ diagonal - 1) :
    bestAfter old new diagonal s k = s.best k := by
  rw [bestAfter, setBest, if_neg h, setBest, if_neg h']

theorem bestAfter_self : bestAfter old new diagonal s diagonal = visited old new diagonal s := if_pos rfl

namespace Mid

variable {s₀ : Search α}

/-- A visit that goes on. -/
theorem visit (h : Mid old new edits s₀ s diagonal) (h₀ : Round old new edits s₀)
    (hcont : diagonal ≤ lastDiagonal s.maxDiagonal (edits + 1)) {s' : Search α}
    (hs' : visit old new diagonal s = .ok s') : Mid old new edits s₀ s' (diagonal + 2) := by
  obtain ⟨p, he, -⟩ | ⟨s₁, he, hbest, hopen, hmax, hmin⟩ := visit_cases old new diagonal s
  · rw [he] at hs'
    cases hs'
  obtain rfl : s₁ = s' := Except.ok.inj (he.symm.trans hs')
  obtain ⟨-, -, hreads⟩ := h.reads h₀
  obtain ⟨hmax₀, hlast⟩ := h.max_eq hcont
  have hparity := h.parity
  have hlower : lowerMax s.maxDiagonal diagonal = some (diagonal - 1) :=
    lowerMax_eq fun m hm => hlast m (hmax₀ ▸ hm)
  have hmin_le : ∀ m, s.minDiagonal = some m → m ≤ diagonal := by
    intro m hm
    obtain ⟨heq, hfirst⟩ | ⟨m', hm', hlt, -⟩ := h.min
    · have := (hfirst m (heq ▸ hm)).1
      omega
    · have := Option.some.inj (hm'.symm.trans hm)
      omega
  have hraise := raiseMin_eq hmin_le
  refine ⟨⟨fun k p hp => ?_, fun k p hp hdone => ?_, fun k p hp hdone => ?_⟩, by omega, fun k hk hpar => ?_,
    fun k hk hfirst => ?_, fun m hm => ?_, ?_, ?_⟩
  · rw [hbest] at hp
    obtain ⟨rfl, hq⟩ | ⟨-, hp⟩ := bestAfter_some hp
    · exact ⟨hreads.visited_within hq, hopen p hq⟩
    · exact h.within k p hp
  · rw [hbest] at hp
    obtain ⟨rfl, hq⟩ | ⟨-, hp⟩ := bestAfter_some hp
    · obtain ⟨-, hnot⟩ | ⟨heq, -⟩ := hmax
      · exact absurd hdone (hnot p hq)
      · exact ⟨k - 1, heq.trans hlower, by omega⟩
    · obtain ⟨m, hm, hlt⟩ := h.oldDone k p hp hdone
      have := hlast m (hmax₀ ▸ hm)
      obtain ⟨heq, -⟩ | ⟨heq, -⟩ := hmax
      · exact ⟨m, heq.trans hm, hlt⟩
      · exact ⟨diagonal - 1, heq.trans hlower, by omega⟩
  · rw [hbest] at hp
    obtain ⟨rfl, hq⟩ | ⟨-, hp⟩ := bestAfter_some hp
    · obtain ⟨-, hnot⟩ | ⟨heq, -⟩ := hmin
      · exact absurd hdone (hnot p hq)
      · exact ⟨k + 1, heq.trans hraise, by omega⟩
    · obtain ⟨m, hm, hlt⟩ := h.newDone k p hp hdone
      have := hmin_le m hm
      obtain ⟨heq, -⟩ | ⟨heq, -⟩ := hmin
      · exact ⟨m, heq.trans hm, hlt⟩
      · exact ⟨diagonal + 1, heq.trans hraise, by omega⟩
  · rw [hbest, bestAfter_eq (by omega) (by omega)]
    exact h.same k (by omega) hpar
  · rw [hbest]
    by_cases hd : k = diagonal
    · exact hd ▸ h.far_visited h₀ hcont
    · intro x y hreach hxy
      -- the diagonals of the other parity are not reached
      have := hreach.diagonal
      rw [bestAfter_eq hd (by omega)]
      exact h.far k (by omega) hfirst x y hreach hxy
  · have := h.first m hm
    omega
  · rw [hbest]
    obtain ⟨heq, hnot⟩ | ⟨heq, q, hq, hdone⟩ := hmax
    · refine .inl ⟨heq.trans hmax₀, fun m hm => ?_⟩
      have := hlast m hm
      have := (h₀.maxDone m hm).1
      have : m ≠ diagonal := fun hmd => by
        obtain ⟨q, hq, hdone⟩ := h.visited_max h₀ (hmd ▸ hm)
        exact hnot q hq hdone
      omega
    · refine .inr ⟨heq.trans (hlower.trans (congrArg some (by omega))), q, ?_, hdone⟩
      rw [Int.add_sub_cancel, bestAfter_self, hq]
  · rw [hbest]
    obtain ⟨heq, hnot⟩ | ⟨heq, q, hq, hdone⟩ := hmin
    · obtain ⟨hmin₀, hfirst⟩ | ⟨m, hm, hlt, hpar, hle, p, hp, hdone⟩ := h.min
      · refine .inl ⟨heq.trans hmin₀, fun m hm => ?_⟩
        obtain ⟨q, hq, hdone⟩ := h.visited_min h₀ (by rw [(hfirst m hm).1, hm])
        exact absurd hdone (hnot q hq)
      · exact .inr ⟨m, heq.trans hm, by omega, hpar, hle, p, by rwa [bestAfter_eq (by omega) (by omega)], hdone⟩
    · refine .inr ⟨diagonal + 1, heq.trans hraise, by omega, by omega, fun m hm => ?_, q, ?_, ?_⟩
      · have := h.first m hm
        omega
      · rw [Int.add_sub_cancel, bestAfter_self, hq]
      · rwa [Int.add_sub_cancel]

omit [DecidableEq α] in
/-- A round that is over. -/
theorem finish (h : Mid old new edits s₀ s diagonal) (h₀ : Round old new edits s₀)
    (hstop : ¬diagonal ≤ lastDiagonal s.maxDiagonal (edits + 1)) : Round old new (edits + 1) s := by
  have hparity := h.parity
  -- the round ended at the last diagonal of all, or at the border
  have hend : (edits + 1 < diagonal ∧ s₀.maxDiagonal = none ∧ s.maxDiagonal = none) ∨
      s.maxDiagonal = some (diagonal - 3) ∧ ∃ p, s.best (diagonal - 2) = some p ∧ p.OldDone old := by
    obtain ⟨heq, hlast⟩ | hlast := h.last
    · refine .inl ?_
      rw [heq] at hstop
      cases hm : s₀.maxDiagonal with
      | none =>
        rw [hm] at hstop heq
        exact ⟨by simpa [lastDiagonal] using hstop, rfl, heq⟩
      | some m =>
        have := hlast m hm
        have := h₀.max_bounds hm
        rw [hm] at hstop
        simp only [lastDiagonal, Option.elim] at hstop
        omega
    · exact .inr hlast
  refine ⟨h.toTable, fun k hmin hmax x y hreach hxy => ?_, fun m hm => ?_, fun m hm => ?_⟩
  · have := hreach.diagonal
    have hk : k < diagonal := by
      obtain ⟨hlt, -⟩ | ⟨hm, -⟩ := hend
      · omega
      · have := hmax _ hm
        omega
    refine h.far k hk (fun m₀ hm₀ => ?_) x y hreach hxy
    -- by parity the bound is not one beyond the diagonal
    have := (h₀.minDone m₀ hm₀).1
    obtain ⟨heq, -⟩ | ⟨m, hm, -, hpar, hle, -⟩ := h.min
    · have := hmin m₀ (heq.trans hm₀)
      omega
    · have := hmin m hm
      have := hle m₀ hm₀
      omega
  · obtain ⟨heq, hfirst⟩ | ⟨m', hm', -, hpar, -, hdone⟩ := h.min
    · -- the round has visited at least its first diagonal
      obtain ⟨hd, heqMax⟩ := hfirst m (heq ▸ hm)
      have := h₀.min_bounds (heq ▸ hm)
      obtain ⟨hlt, -⟩ | ⟨hm', -⟩ := hend
      · omega
      · have := h₀.max_bounds (heqMax ▸ hm')
        omega
    · obtain rfl := Option.some.inj (hm'.symm.trans hm)
      exact ⟨by omega, hdone⟩
  · obtain ⟨-, -, hnone⟩ | ⟨hm', hdone⟩ := hend
    · rw [hnone] at hm
      cases hm
    · obtain rfl := Option.some.inj (hm'.symm.trans hm)
      exact ⟨by omega, by rwa [show diagonal - 3 + 1 = diagonal - 2 by omega]⟩

end Mid

/-- A whole round: it ends the search with a path to both ends, or it keeps what the search needs. -/
theorem sweep_spec {s₀ : Search α} (h₀ : Round old new edits s₀) (h : Mid old new edits s₀ s diagonal) :
    (∃ p e, sweep old new (edits + 1) diagonal s = .error p ∧ e ≤ edits + 1 ∧
        Trace old new p.last e old.length new.length) ∨
      ∃ s', sweep old new (edits + 1) diagonal s = .ok s' ∧ Round old new (edits + 1) s' := by
  fun_induction sweep old new (edits + 1) diagonal s with
  | case1 diagonal s hcont p hp =>
    obtain ⟨p', hp', hq, ho, hn⟩ | ⟨s', hs', -⟩ := visit_cases old new diagonal s
    · obtain rfl := Except.error.inj (hp'.symm.trans hp)
      obtain ⟨e, he, ht⟩ := ((h.reads h₀).2.2.visited_within hq).trace ho hn
      exact .inl ⟨p', e, rfl, he, ht⟩
    · rw [hs'] at hp
      cases hp
  | case2 diagonal s hcont s' hs' ih => exact ih (h.visit h₀ hcont hs')
  | case3 diagonal s hstop => exact .inr ⟨s, rfl, h.finish h₀ hstop⟩

/-- The search finds a path to both ends, and none has fewer edits. -/
theorem rounds_shortest (fuel : Nat) (h : Round old new edits s)
    (hlow : ∀ e < edits, ¬Reaches old new e old.length new.length) (he : edits ≤ old.length + new.length)
    (hfuel : old.length + new.length ≤ fuel + edits) :
    ∃ p e, rounds old new fuel (edits + 1) s = some p ∧ Trace old new p.last e old.length new.length ∧
      ∀ e', Reaches old new e' old.length new.length → e ≤ e' := by
  -- deleting everything and inserting everything is not passed by
  have hne : edits ≠ old.length + new.length := fun heq => h.not_reaches (heq ▸ Reaches.all old new)
  induction fuel generalizing edits s with
  | zero => omega
  | succ fuel ih =>
    have hlow' : ∀ e < edits + 1, ¬Reaches old new e old.length new.length := fun e hlt hreach =>
      (Nat.lt_succ_iff_lt_or_eq.1 hlt).elim (fun hlt => hlow e hlt hreach) fun heq => h.not_reaches (heq ▸ hreach)
    obtain ⟨p, e, hp, hle, ht⟩ | ⟨s', hs', hround⟩ := sweep_spec h (Mid.start h)
    · refine ⟨p, e, by rw [rounds, hp], ht, fun e' hreach => ?_⟩
      by_contra hlt
      exact hlow' e' (by omega) hreach
    · obtain ⟨p, e, hp, hrest⟩ := ih hround hlow' (by omega) (by omega)
        fun heq => hround.not_reaches (heq ▸ Reaches.all old new)
      exact ⟨p, e, by rw [rounds, hs']; exact hp, hrest⟩

/-- More fuel changes nothing. -/
theorem rounds_mono {fuel fuel' editLength : Nat} {p : Path α} (h : rounds old new fuel editLength s = some p)
    (hle : fuel ≤ fuel') : rounds old new fuel' editLength s = some p := by
  induction fuel generalizing fuel' editLength s with
  | zero => cases h
  | succ fuel ih =>
    obtain ⟨fuel', rfl⟩ : ∃ n, fuel' = n + 1 := ⟨fuel' - 1, by omega⟩
    rw [rounds] at h ⊢
    cases hs : sweep old new editLength (firstDiagonal s.minDiagonal editLength) s with
    | error q =>
      rw [hs] at h
      exact h
    | ok s' =>
      rw [hs] at h
      exact ih h (by omega)

/-! ## The first round -/

/-- The search as it starts: the tokens in common at the front. -/
def seedSearch (seed : Path α) : Search α :=
  { best := setBest (fun _ => none) 0 (some seed), minDiagonal := none, maxDiagonal := none }

/-- The same, with the bounds the seed meets. -/
def boundedSeed (old new : List α) (seed : Path α) : Search α :=
  { best := setBest (fun _ => none) 0 (some seed)
    minDiagonal := if seed.NewDone new 0 then some 1 else none
    maxDiagonal := if seed.OldDone old then some (-1) else none }

omit [DecidableEq α] in
/-- The seed goes as far as no edit leads. -/
theorem boundedSeed_round {seed : Path α} {n : Nat} (hat : seed.At old new 0 0 n n) (hend : ¬Agree old new n n)
    (hopen : ¬(seed.OldDone old ∧ seed.NewDone new 0)) : Round old new 0 (boundedSeed old new seed) := by
  have hbest {k : Int} {p : Path α} (hp : (boundedSeed old new seed).best k = some p) : k = 0 ∧ p = seed := by
    by_cases hk : k = 0
    · exact ⟨hk, (Option.some.inj (by simpa [boundedSeed, setBest, hk] using hp)).symm⟩
    · simp [boundedSeed, setBest, hk] at hp
  have hpos := hat.oldPos
  refine ⟨⟨fun k p hp => ?_, fun k p hp hdone => ?_, fun k p hp hdone => ?_⟩, fun k _ _ x y hreach hxy => ?_,
    fun m hm => ?_, fun m hm => ?_⟩
  · obtain ⟨rfl, rfl⟩ := hbest hp
    exact ⟨⟨0, n, n, le_rfl, hat⟩, hopen⟩
  · obtain ⟨rfl, rfl⟩ := hbest hp
    exact ⟨-1, if_pos hdone, by omega⟩
  · obtain ⟨rfl, rfl⟩ := hbest hp
    exact ⟨1, if_pos hdone, by omega⟩
  · obtain ⟨x₀, y₀, i, rfl, rfl, hrun, hlast⟩ := hreach.last_edit
    obtain ⟨-, rfl, rfl⟩ | ⟨e, -, he, -⟩ | ⟨e, -, he, -⟩ := hlast
    · obtain rfl : k = 0 := by omega
      refine ⟨seed, rfl, ?_⟩
      by_contra hlt
      have hn := hrun n (by omega)
      rw [Nat.zero_add] at hn
      exact hend hn
    · omega
    · omega
  · by_cases hdone : seed.NewDone new 0
    · obtain rfl : 1 = m := Option.some.inj ((if_pos hdone).symm.trans hm)
      exact ⟨by omega, seed, rfl, hdone⟩
    · cases (if_neg hdone).symm.trans hm
  · by_cases hdone : seed.OldDone old
    · obtain rfl : -1 = m := Option.some.inj ((if_pos hdone).symm.trans hm)
      exact ⟨by omega, seed, rfl, hdone⟩
    · cases (if_neg hdone).symm.trans hm

/-- A visit depends on the bounds only where it does not meet them. -/
theorem visit_congr {s' : Search α} {q : Path α} (hbest : s.best = s'.best)
    (hq : visited old new diagonal s = some q)
    (hmax : (if q.OldDone old then lowerMax s.maxDiagonal diagonal else s.maxDiagonal) =
      if q.OldDone old then lowerMax s'.maxDiagonal diagonal else s'.maxDiagonal)
    (hmin : (if q.NewDone new diagonal then raiseMin s.minDiagonal diagonal else s.minDiagonal) =
      if q.NewDone new diagonal then raiseMin s'.minDiagonal diagonal else s'.minDiagonal) :
    visit old new diagonal s = visit old new diagonal s' := by
  have hq' : visited old new diagonal s' = some q := by rw [← hq, visited, visited, hbest]
  have hafter : bestAfter old new diagonal s = bestAfter old new diagonal s' := by
    rw [bestAfter, bestAfter, hq, hq', hbest]
  rw [visit_eq, visit_eq, hq, hq']
  simp only [hafter, hmax, hmin]

omit [DecidableEq α] in
theorem seedSearch_best {seed p : Path α} {k : Int} (h : (seedSearch seed).best k = some p) : k = 0 ∧ p = seed := by
  by_cases hk : k = 0
  · exact ⟨hk, (Option.some.inj (by simpa [seedSearch, setBest, hk] using h)).symm⟩
  · simp [seedSearch, setBest, hk] at h

/-- The bounds the seed meets change nothing: the diagonal left out of the first round has no path. -/
theorem first_sweep {seed : Path α} {n : Nat} (hat : seed.At old new 0 0 n n)
    (hopen : ¬(seed.OldDone old ∧ seed.NewDone new 0)) :
    sweep old new 1 (firstDiagonal none 1) (seedSearch seed) =
      sweep old new 1 (firstDiagonal (boundedSeed old new seed).minDiagonal 1) (boundedSeed old new seed) := by
  have hreads (diagonal : Int) : Reads old new 0 diagonal (seedSearch seed) := by
    refine ⟨fun p hp => ?_, fun p hp => ?_⟩
    · obtain ⟨hk, rfl⟩ := seedSearch_best hp
      exact ⟨0, n, n, le_rfl, hk ▸ hat⟩
    · obtain ⟨hk, rfl⟩ := seedSearch_best hp
      exact ⟨0, n, n, le_rfl, hk ▸ hat⟩
  have hlow : (-1 : Int) ≤ 1 := by decide
  by_cases ho : seed.OldDone old
  · -- the first visit meets the old border
    have hn : ¬seed.NewDone new 0 := fun hn => hopen ⟨ho, hn⟩
    obtain ⟨q, hq, hbeyond⟩ := (hreads (-1)).visited_add (p := seed) rfl (show ¬seed.NewDone new (-1 + 1) from hn)
    have hdone : q.OldDone old := by
      have := hbeyond.le
      omega
    have hvisit : visit old new (-1) (seedSearch seed) = visit old new (-1) (boundedSeed old new seed) := by
      refine visit_congr rfl hq ?_ ?_
      · simp only [if_pos hdone, boundedSeed, if_pos ho]
        rfl
      · simp only [boundedSeed, if_neg hn]
        rfl
    have hmin : firstDiagonal (boundedSeed old new seed).minDiagonal 1 = -1 := by
      simp only [boundedSeed, if_neg hn]
      rfl
    have hmax : lastDiagonal (boundedSeed old new seed).maxDiagonal 1 = -1 := by
      simp only [boundedSeed, if_pos ho]
      rfl
    rw [hmin, show firstDiagonal none 1 = -1 from rfl, sweep, if_pos (by exact hlow), hvisit]
    conv_rhs => rw [sweep, if_pos (Int.le_of_eq hmax.symm)]
  · by_cases hn : seed.NewDone new 0
    · -- the first visit has nothing to go on from, and the second meets the new border
      have hnone : visited old new (-1) (seedSearch seed) = none := by
        have hadd : canAdd new (-1) (some seed) = none := by
          rw [canAdd, Option.filter_some, if_neg]
          rw [decide_eq_true_eq]
          omega
        show (chooseBase (canRemove old none) (canAdd new (-1) (some seed))).map _ = none
        rw [hadd]
        rfl
      have hsame : visit old new (-1) (seedSearch seed) = .ok (seedSearch seed) := by
        have hafter : bestAfter old new (-1) (seedSearch seed) = (seedSearch seed).best := by
          funext k
          rw [bestAfter, hnone]
          show (if k = -1 then none else if k = -1 - 1 then none else if k = 0 then some seed else none) =
            if k = 0 then some seed else none
          grind
        rw [visit_eq, hnone, hafter]
      obtain ⟨q, hq, hbeyond⟩ := (hreads 1).visited_remove (p := seed) rfl ho
      have hdone : q.NewDone new 1 := by
        have := hbeyond.le
        omega
      have hvisit : visit old new 1 (seedSearch seed) = visit old new 1 (boundedSeed old new seed) := by
        refine visit_congr rfl hq ?_ ?_
        · simp only [boundedSeed, if_neg ho]
          rfl
        · simp only [if_pos hdone, boundedSeed, if_pos hn]
          rfl
      have hmin : firstDiagonal (boundedSeed old new seed).minDiagonal 1 = 1 := by
        simp only [boundedSeed, if_pos hn]
        rfl
      have hmax : lastDiagonal (boundedSeed old new seed).maxDiagonal 1 = 1 := by
        simp only [boundedSeed, if_neg ho]
        rfl
      have hunbounded : lastDiagonal (seedSearch seed).maxDiagonal 1 = 1 := rfl
      rw [hmin, show firstDiagonal none 1 = -1 from rfl, sweep, if_pos (by exact hlow), hsame]
      show sweep old new 1 1 (seedSearch seed) = _
      rw [sweep, if_pos (Int.le_of_eq hunbounded.symm), hvisit]
      conv_rhs => rw [sweep, if_pos (Int.le_of_eq hmax.symm)]
    · have heq : seedSearch seed = boundedSeed old new seed := by
        rw [seedSearch, boundedSeed, if_neg hn, if_neg ho]
      rw [← heq]
      rfl

/-- The search finds the components of a shortest diff, within as many rounds as there are tokens. -/
theorem diffTokensWithin_trace (old new : List α) :
    ∃ last e,
      (∀ fuel, old.length + new.length ≤ fuel → diffTokensWithin fuel old new = some (buildValues last new old)) ∧
      Trace old new last e old.length new.length ∧ ∀ e', Reaches old new e' old.length new.length → e ≤ e' := by
  have hempty : ({ oldPos := -1, last := [] } : Path α).At old new 0 0 0 0 := ⟨.start, rfl, rfl⟩
  obtain ⟨n, hat, hpos, hend⟩ := extractCommon_at hempty (by simp [Fresh])
  simp only [Nat.zero_add] at hat hpos hend
  generalize hseed : (extractCommon ({ oldPos := -1, last := [] } : Path α) new old 0).1 = seed at hat
  have hseedPos := hat.oldPos
  have hnew : (extractCommon ({ oldPos := -1, last := [] } : Path α) new old 0).2 + 1 ≥ new.length ↔
      seed.NewDone new 0 := by omega
  by_cases hdone : seed.OldDone old ∧ seed.NewDone new 0
  · -- the lists are the same
    obtain ⟨e, he, ht⟩ := Path.Within.trace ⟨0, n, n, le_rfl, hat⟩ hdone.1 hdone.2
    refine ⟨seed.last, e, fun fuel _ => ?_, ht, fun e' _ => by omega⟩
    simp only [diffTokensWithin, hseed, hnew]
    exact if_pos hdone
  · obtain ⟨p, e, hp, ht, hleast⟩ := rounds_shortest (old.length + new.length) (boundedSeed_round hat hend hdone)
      (fun e he => absurd he (Nat.not_lt_zero e)) (Nat.zero_le _) le_rfl
    refine ⟨p.last, e, fun fuel hfuel => ?_, ht, hleast⟩
    have hrounds : rounds old new fuel 1 (seedSearch seed) = rounds old new fuel 1 (boundedSeed old new seed) := by
      cases fuel with
      | zero => rfl
      | succ fuel =>
        rw [rounds, rounds, ← first_sweep hat hdone]
        rfl
    simp only [diffTokensWithin, hseed, hnew]
    rw [if_neg hdone]
    show (rounds old new fuel 1 (seedSearch seed)).map _ = _
    rw [hrounds, rounds_mono hp hfuel]
    rfl

/-- The search ends, and its fuel is enough. -/
theorem diffTokensWithin_eq {fuel : Nat} (h : old.length + new.length ≤ fuel) :
    diffTokensWithin fuel old new = some (diffTokens old new) := by
  obtain ⟨last, e, hsome, -⟩ := diffTokensWithin_trace old new
  rw [hsome fuel h, diffTokens, hsome _ le_rfl, Option.getD_some]

/-- Its components are a diff, with as many edits as lead to the end, and no fewer do. -/
theorem diffTokens_isDiff (old new : List α) :
    IsDiff old new (diffTokens old new) ∧
      Reaches old new (editCount (diffTokens old new)) old.length new.length ∧
      ∀ e, Reaches old new e old.length new.length → editCount (diffTokens old new) ≤ e := by
  obtain ⟨last, e, hsome, ht, hleast⟩ := diffTokensWithin_trace old new
  have heq : diffTokens old new = buildValues last new old := by
    rw [diffTokens, hsome _ le_rfl, Option.getD_some]
  obtain ⟨hdiff, hedits⟩ := ht.buildValues_isDiff
  rw [heq, hedits]
  exact ⟨hdiff, ht.reaches, hleast⟩

/-- The search ends with a diff of the two lists, and no edit script is shorter: it adds and removes
what the longest common sublist leaves. -/
theorem diffTokens_shortest (old new : List α) :
    (∀ fuel, old.length + new.length ≤ fuel → diffTokensWithin fuel old new = some (diffTokens old new)) ∧
    oldTokens (diffTokens old new) = old ∧
    newTokens (diffTokens old new) = new ∧
    ((diffTokens old new).IsChain fun c d => c.kind ≠ d.kind) ∧
    (∀ c ∈ diffTokens old new, c.count = c.tokens.length ∧ ¬(c.added = true ∧ c.removed = true)) ∧
    (∃ s, source s = old ∧ target s = new ∧ cost s = editCount (diffTokens old new)) ∧
    (∀ s, source s = old → target s = new → editCount (diffTokens old new) ≤ cost s) ∧
    editCount (diffTokens old new) + 2 * lcs old new = old.length + new.length := by
  obtain ⟨hdiff, hreach, hleast⟩ := diffTokens_isDiff old new
  have hmin (s : List (EditStep α)) (hs : source s = old) (ht : target s = new) :
      editCount (diffTokens old new) ≤ cost s := hleast _ (reaches_iff.2 ⟨s, hs, ht, rfl⟩)
  have hscript := reaches_iff.1 hreach
  refine ⟨fun fuel h => diffTokensWithin_eq h, hdiff.oldTokens, hdiff.newTokens, hdiff.alternate,
    fun c hc => ⟨hdiff.count c hc, hdiff.exclusive c hc⟩, hscript, hmin, ?_⟩
  obtain ⟨s, hs, ht, hc⟩ := hscript
  have hlower := lcs_le_cost s
  obtain ⟨t, hts, htt, hcost⟩ := exists_script_lcs old new
  have hupper := hmin t hts htt
  rw [hs, ht, hc] at hlower
  omega

end search

end JsDiff

end MinionAgent
