import Mathlib.Data.List.Basic

/-!
# MinionAgent.Library.Turns

Queues whose members take turns: each one waits for the release of the last
one before it of the same scope, and is released itself only once that one is.

* `Turns.Fifo` — what such queues keep, with a rule for each operation
  (`Fifo.enqueue`, `Fifo.release`, `Fifo.clear`);
* `Fifo.earlier_released` — at its turn, a member finds every earlier one of
  its scope released;
* `Turns.Logged.start` — the turns of a scope are taken in order.
-/

/-- Members by number: the scope of those that are queued, the one each waits
for, those released, and the last one of each scope. -/
@[ext] structure Turns (κ : Type) where
  scope : ℕ → Option κ
  current : ℕ → Option ℕ
  released : ℕ → Prop
  tail : κ → Option ℕ

namespace Turns

variable {κ : Type}

/-- It is a member's turn: the one it waits for is released. -/
def Turn (q : Turns κ) (i : ℕ) : Prop := ∀ p, q.current i = some p → q.released p

/-- Members wait for the last one before them, and are released in order. -/
structure Fifo (q : Turns κ) : Prop where
  current_lt : ∀ i k p, q.scope i = some k → q.current i = some p → p < i ∧ q.scope p = some k
  covers : ∀ i j k, q.scope i = some k → q.scope j = some k → j < i →
    q.released j ∨ ∃ p, q.current i = some p ∧ j ≤ p
  closed : ∀ i j k, q.scope i = some k → q.scope j = some k → j < i → q.released i → q.released j
  tail_max : ∀ k t, q.tail k = some t → q.scope t = some k ∧ ∀ j, q.scope j = some k → j ≤ t
  tail_none : ∀ k j, q.tail k = none → q.scope j = some k → q.released j

/-- Nobody is queued. -/
theorem fifo_of_empty {q : Turns κ} (hscope : ∀ i, q.scope i = none) (htail : ∀ k, q.tail k = none) : q.Fifo where
  current_lt := by simp [hscope]
  covers := by simp [hscope]
  closed := by simp [hscope]
  tail_max := by simp [htail]
  tail_none := by simp [hscope]

theorem Fifo.earlier_released {q : Turns κ} (h : q.Fifo) {i j : ℕ} {k : κ} (hi : q.scope i = some k)
    (hj : q.scope j = some k) (hlt : j < i) (hturn : q.Turn i) : q.released j := by
  rcases h.covers i j k hi hj hlt with hreleased | ⟨p, hp, hle⟩
  · exact hreleased
  · have hrel := hturn p hp
    rcases Nat.lt_or_eq_of_le hle with hlt' | rfl
    · exact h.closed p j k (h.current_lt i k p hi hp).2 hj hlt' hrel
    · exact hrel

/-- A new member is queued at the end of a scope whose members come before
it. -/
theorem Fifo.enqueue {q q' : Turns κ} (h : q.Fifo) {i : ℕ} {k : κ} (hnone : q.scope i = none)
    (hnew : ∀ j, q.scope j = some k → j < i) (hi : q'.scope i = some k) (hscope : ∀ j, j ≠ i → q'.scope j = q.scope j)
    (hcurrentI : q'.current i = q.tail k) (hcurrent : ∀ j, j ≠ i → q'.current j = q.current j)
    (hreleasedI : ¬ q'.released i) (hreleased : ∀ j, j ≠ i → (q'.released j ↔ q.released j))
    (htailK : q'.tail k = some i) (htail : ∀ k', k' ≠ k → q'.tail k' = q.tail k') : q'.Fifo := by
  have hold : ∀ j k', q'.scope j = some k' → j ≠ i → q.scope j = some k' := fun j k' hj hne => by
    rwa [hscope j hne] at hj
  have hne : ∀ j k', q.scope j = some k' → j ≠ i := by
    rintro j k' hj rfl
    simp [hnone] at hj
  constructor
  · intro i' k' p hi' hp
    by_cases heq : i' = i
    · subst heq
      obtain rfl : k = k' := Option.some.inj (hi.symm.trans hi')
      rw [hcurrentI] at hp
      have hscopeP := (h.tail_max k p hp).1
      exact ⟨hnew p hscopeP, by rw [hscope p (hne p k hscopeP)]; exact hscopeP⟩
    · rw [hcurrent i' heq] at hp
      obtain ⟨hlt, hscopeP⟩ := h.current_lt i' k' p (hold i' k' hi' heq) hp
      exact ⟨hlt, by rw [hscope p (hne p k' hscopeP)]; exact hscopeP⟩
  · intro i' j k' hi' hj hlt
    by_cases heq : i' = i
    · subst heq
      obtain rfl : k = k' := Option.some.inj (hi.symm.trans hi')
      have hneJ : j ≠ i' := Nat.ne_of_lt hlt
      have hscopeJ := hold j k hj hneJ
      rw [hcurrentI, hreleased j hneJ]
      cases htailOld : q.tail k with
      | none => exact .inl (h.tail_none k j htailOld hscopeJ)
      | some t => exact .inr ⟨t, rfl, (h.tail_max k t htailOld).2 j hscopeJ⟩
    · by_cases heqJ : j = i
      · -- the new member is behind those of its scope
        subst heqJ
        obtain rfl : k = k' := Option.some.inj (hi.symm.trans hj)
        have := hnew i' (hold i' k hi' heq)
        omega
      · rw [hcurrent i' heq, hreleased j heqJ]
        exact h.covers i' j k' (hold i' k' hi' heq) (hold j k' hj heqJ) hlt
  · intro i' j k' hi' hj hlt hrel
    by_cases heq : i' = i
    · subst heq
      exact absurd hrel hreleasedI
    · by_cases heqJ : j = i
      · subst heqJ
        obtain rfl : k = k' := Option.some.inj (hi.symm.trans hj)
        have := hnew i' (hold i' k hi' heq)
        omega
      · rw [hreleased j heqJ]
        exact h.closed i' j k' (hold i' k' hi' heq) (hold j k' hj heqJ) hlt ((hreleased i' heq).mp hrel)
  · intro k' t ht
    by_cases heq : k' = k
    · subst heq
      obtain rfl : i = t := Option.some.inj (htailK.symm.trans ht)
      refine ⟨hi, fun j hj => ?_⟩
      by_cases heqJ : j = i
      · exact Nat.le_of_eq heqJ
      · exact Nat.le_of_lt (hnew j (hold j k' hj heqJ))
    · rw [htail k' heq] at ht
      obtain ⟨hscopeT, hmax⟩ := h.tail_max k' t ht
      refine ⟨by rw [hscope t (hne t k' hscopeT)]; exact hscopeT, fun j hj => ?_⟩
      have hneJ : j ≠ i := by
        rintro rfl
        exact heq (Option.some.inj (hj.symm.trans hi))
      exact hmax j (hold j k' hj hneJ)
  · intro k' j ht hj
    have hneK : k' ≠ k := by
      rintro rfl
      simp [htailK] at ht
    have hneJ : j ≠ i := by
      rintro rfl
      exact hneK (Option.some.inj (hj.symm.trans hi))
    rw [htail k' hneK] at ht
    rw [hreleased j hneJ]
    exact h.tail_none k' j ht (hold j k' hj hneJ)

/-- A member is released at its turn. -/
theorem Fifo.release {q q' : Turns κ} (h : q.Fifo) {i : ℕ} (hturn : q.Turn i)
    (hscope : ∀ j, q'.scope j = q.scope j) (hcurrent : ∀ j, q'.current j = q.current j)
    (hreleased : ∀ j, q'.released j ↔ j = i ∨ q.released j) (htail : ∀ k, q'.tail k = q.tail k) : q'.Fifo := by
  constructor
  · simpa only [hscope, hcurrent] using h.current_lt
  · intro i' j k hi' hj hlt
    rw [hscope] at hi' hj
    rw [hreleased, hcurrent]
    rcases h.covers i' j k hi' hj hlt with hrel | hcover
    · exact .inl (.inr hrel)
    · exact .inr hcover
  · intro i' j k hi' hj hlt hrel
    rw [hscope] at hi' hj
    rw [hreleased] at hrel ⊢
    rcases hrel with rfl | hrel
    · exact .inr (h.earlier_released hi' hj hlt hturn)
    · exact .inr (h.closed i' j k hi' hj hlt hrel)
  · simpa only [hscope, htail] using h.tail_max
  · intro k j ht hj
    rw [htail] at ht
    rw [hscope] at hj
    rw [hreleased]
    exact .inr (h.tail_none k j ht hj)

/-- The entry of a scope whose last member is released is removed. -/
theorem Fifo.clear {q q' : Turns κ} (h : q.Fifo) {i : ℕ} {k : κ} (hi : q.tail k = some i) (hrel : q.released i)
    (hscope : ∀ j, q'.scope j = q.scope j) (hcurrent : ∀ j, q'.current j = q.current j)
    (hreleased : ∀ j, q'.released j ↔ q.released j) (htailK : q'.tail k = none)
    (htail : ∀ k', k' ≠ k → q'.tail k' = q.tail k') : q'.Fifo := by
  obtain ⟨hscopeI, hmax⟩ := h.tail_max k i hi
  constructor
  · simpa only [hscope, hcurrent] using h.current_lt
  · simpa only [hscope, hcurrent, hreleased] using h.covers
  · simpa only [hscope, hreleased] using h.closed
  · intro k' t ht
    have hne : k' ≠ k := by
      rintro rfl
      simp [htailK] at ht
    rw [htail k' hne] at ht
    simpa only [hscope] using h.tail_max k' t ht
  · intro k' j ht hj
    rw [hscope] at hj
    rw [hreleased]
    by_cases hne : k' = k
    · subst hne
      rcases Nat.lt_or_eq_of_le (hmax j hj) with hlt | rfl
      · exact h.closed i j k' hscopeI hj hlt hrel
      · exact hrel
    · rw [htail k' hne] at ht
      exact h.tail_none k' j ht hj

/-! ## The order of turns -/

/-- The members that have taken their turn, in the order in which they did. -/
structure Logged (q : Turns κ) (starts : List ℕ) : Prop where
  turn : ∀ i ∈ starts, (q.scope i).isSome ∧ q.Turn i
  ordered : starts.Pairwise fun i j => q.scope i = q.scope j → i < j

theorem logged_nil (q : Turns κ) : q.Logged [] := ⟨by simp, .nil⟩

/-- A log stays one while scopes stay and members are released. -/
theorem Logged.mono {q q' : Turns κ} {starts : List ℕ} (h : q.Logged starts)
    (hscope : ∀ i ∈ starts, q'.scope i = q.scope i) (hcurrent : ∀ i ∈ starts, q'.current i = q.current i)
    (hreleased : ∀ i, q.released i → q'.released i) : q'.Logged starts := by
  constructor
  · intro i hi
    obtain ⟨hsome, hturn⟩ := h.turn i hi
    refine ⟨by rw [hscope i hi]; exact hsome, fun p hp => ?_⟩
    rw [hcurrent i hi] at hp
    exact hreleased p (hturn p hp)
  · refine h.ordered.imp_of_mem fun hi hj hlt heq => ?_
    rw [hscope _ hi, hscope _ hj] at heq
    exact hlt heq

/-- A member that has not been released takes its turn, behind those of its
scope that took theirs. -/
theorem Logged.start {q : Turns κ} {starts : List ℕ} (h : q.Logged starts) (hfifo : q.Fifo) {i : ℕ} {k : κ}
    (hi : q.scope i = some k) (hturn : q.Turn i) (hrel : ¬ q.released i) (hnew : i ∉ starts) :
    q.Logged (starts ++ [i]) := by
  constructor
  · intro j hj
    rcases List.mem_append.mp hj with hj | hj
    · exact h.turn j hj
    · obtain rfl := List.mem_singleton.mp hj
      exact ⟨by simp [hi], hturn⟩
  · refine List.pairwise_append.mpr ⟨h.ordered, List.pairwise_singleton _ _, fun j hj i' hi' heq => ?_⟩
    obtain rfl := List.mem_singleton.mp hi'
    rw [hi] at heq
    -- a later member at its turn would have found this one released
    by_contra hle
    have hlt : i' < j := by
      have hne : j ≠ i' := by
        rintro rfl
        exact hnew hj
      omega
    exact hrel (hfifo.earlier_released heq hi hlt (h.turn j hj).2)

end Turns
