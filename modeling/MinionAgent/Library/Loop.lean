import Mathlib.Data.Set.Finite.Basic
import Mathlib.Logic.Relation

/-!
# MinionAgent.Library.Loop

A loop that ends.  A step takes a state to the next state, or out of the loop
with a result.

* `run` — the result after at most so many steps;
* `run_invariant` — what every step keeps holds where the loop is left;
* `Returns` — some number of steps is enough;
* `Reaches` — the states a loop comes to, with the rules that compose them;
* `exists_returns` — a loop whose steps come closer to an end returns;
* `not_returns_iff` — a loop through finitely many states fails to return just
  when it comes back to a state.
-/

namespace Loop

variable {σ ρ : Type} {step : σ → σ ⊕ ρ}

/-- The result of the loop, when so many steps are enough for it. -/
def run (step : σ → σ ⊕ ρ) : Nat → σ → Option ρ
  | 0, _ => none
  | fuel + 1, s =>
    match step s with
    | .inl s' => run step fuel s'
    | .inr result => some result

/-- The loop ends with a result. -/
def Returns (step : σ → σ ⊕ ρ) (s : σ) (result : ρ) : Prop :=
  ∃ fuel, run step fuel s = some result

/-- The loop comes from one state to another. -/
def Reaches (step : σ → σ ⊕ ρ) : σ → σ → Prop := Relation.ReflTransGen fun s s' => step s = .inl s'

variable {s s' : σ} {result : ρ}

theorem run_succ_inl (h : step s = .inl s') (fuel : Nat) : run step (fuel + 1) s = run step fuel s' := by
  simp [run, h]

theorem run_succ_inr (h : step s = .inr result) (fuel : Nat) : run step (fuel + 1) s = some result := by
  simp [run, h]

/-- More steps than enough are enough. -/
theorem run_mono {fuel fuel' : Nat} (hfuel : fuel ≤ fuel') (h : run step fuel s = some result) :
    run step fuel' s = some result := by
  induction fuel generalizing s fuel' with
  | zero => cases h
  | succ fuel ih =>
    obtain ⟨more, rfl⟩ := Nat.exists_eq_add_of_le hfuel
    rw [Nat.add_right_comm]
    cases hstep : step s with
    | inl s' =>
      rw [run_succ_inl hstep] at h ⊢
      exact ih (Nat.le_add_right fuel more) h
    | inr result' =>
      rw [run_succ_inr hstep] at h ⊢
      exact h

/-- What every turn keeps holds at the turn that leaves the loop. -/
theorem run_invariant {Inv : σ → Prop} (hstep : ∀ s s', Inv s → step s = .inl s' → Inv s') {fuel : Nat}
    (hs : Inv s) (h : run step fuel s = some result) : ∃ s', Inv s' ∧ step s' = .inr result := by
  induction fuel generalizing s with
  | zero => cases h
  | succ fuel ih =>
    cases hturn : step s with
    | inl s' =>
      rw [run_succ_inl hturn] at h
      exact ih (hstep s s' hs hturn) h
    | inr result' =>
      rw [run_succ_inr hturn] at h
      cases h
      exact ⟨s, hs, hturn⟩

/-- A loop ends with one result. -/
theorem Returns.unique {r r' : ρ} (h : Returns step s r) (h' : Returns step s r') : r = r' := by
  obtain ⟨fuel, h⟩ := h
  obtain ⟨fuel', h'⟩ := h'
  have hmax := run_mono (Nat.le_max_left fuel fuel') h
  have hmax' := run_mono (Nat.le_max_right fuel fuel') h'
  rw [hmax] at hmax'
  exact Option.some.inj hmax'

theorem Returns.of_inr (h : step s = .inr result) : Returns step s result :=
  ⟨1, run_succ_inr h 0⟩

theorem Reaches.refl (s : σ) : Reaches step s s := Relation.ReflTransGen.refl

theorem Reaches.single (h : step s = .inl s') : Reaches step s s' := Relation.ReflTransGen.single h

theorem Reaches.trans {s'' : σ} (h : Reaches step s s') (h' : Reaches step s' s'') : Reaches step s s'' :=
  Relation.ReflTransGen.trans h h'

/-- The loop ends as it does from a state it comes to. -/
theorem Reaches.returns (h : Reaches step s s') (hend : Returns step s' result) : Returns step s result := by
  induction h using Relation.ReflTransGen.head_induction_on with
  | refl => exact hend
  | head hstep _ ih =>
    obtain ⟨fuel, hrun⟩ := ih
    exact ⟨fuel + 1, (run_succ_inl hstep fuel).trans hrun⟩

/-- A loop ends in a state that it comes to. -/
theorem returns_iff : Returns step s result ↔ ∃ s', Reaches step s s' ∧ step s' = .inr result := by
  constructor
  · rintro ⟨fuel, hrun⟩
    exact @run_invariant _ _ step _ _ (Reaches step s) (fun _ _ hreach hturn => hreach.trans (Reaches.single hturn)) _
      (Reaches.refl s) hrun
  · rintro ⟨s', hreach, hturn⟩
    exact hreach.returns (Returns.of_inr hturn)

/-! ## Loops that end -/

/-- A loop whose steps come closer to an end returns. -/
theorem exists_returns (measure : σ → Nat) (hstep : ∀ s s', step s = .inl s' → measure s' < measure s) (s : σ) :
    ∃ result, Returns step s result := by
  induction hm : measure s using Nat.strong_induction_on generalizing s with
  | _ m ih =>
    cases hturn : step s with
    | inr result => exact ⟨result, Returns.of_inr hturn⟩
    | inl s' =>
      obtain ⟨result, h⟩ := ih _ (hm ▸ hstep s s' hturn) s' rfl
      exact ⟨result, (Reaches.single hturn).returns h⟩

/-- The result of a loop that takes the same turns, with other results. -/
theorem run_map {ρ' : Type} {step' : σ → σ ⊕ ρ'} {f : ρ → ρ'} (h : ∀ s, step' s = (step s).map id f)
    (fuel : Nat) (s : σ) : run step' fuel s = (run step fuel s).map f := by
  induction fuel generalizing s with
  | zero => rfl
  | succ fuel ih =>
    cases hturn : step s with
    | inl s' =>
      rw [run_succ_inl hturn, @run_succ_inl _ _ step' s s' (by rw [h, hturn]; rfl), ih]
    | inr result =>
      rw [run_succ_inr hturn, @run_succ_inr _ _ step' s (f result) (by rw [h, hturn]; rfl)]
      rfl

/-! ## Loops that come back -/

/-- The loop comes from one state to another in at least one turn. -/
def Continues (step : σ → σ ⊕ ρ) : σ → σ → Prop := Relation.TransGen fun s s' => step s = .inl s'

/-- After some turns fewer are left. -/
theorem Continues.run_lt (h : Continues step s s') {fuel : Nat} (hrun : run step fuel s = some result) :
    ∃ fuel' < fuel, run step fuel' s' = some result := by
  induction h with
  | single hturn =>
    obtain ⟨fuel', rfl⟩ : ∃ n, fuel = n + 1 := Nat.exists_eq_succ_of_ne_zero (by rintro rfl; cases hrun)
    exact ⟨fuel', by omega, (run_succ_inl hturn fuel').symm.trans hrun⟩
  | tail _ hturn ih =>
    obtain ⟨fuel', hlt, hrun'⟩ := ih
    obtain ⟨fuel'', rfl⟩ : ∃ n, fuel' = n + 1 := Nat.exists_eq_succ_of_ne_zero (by rintro rfl; cases hrun')
    exact ⟨fuel'', by omega, (run_succ_inl hturn fuel'').symm.trans hrun'⟩

/-- A loop that comes back to where it was does not end. -/
theorem Continues.not_returns (h : Continues step s s) (result : ρ) : ¬ Returns step s result := by
  rintro ⟨fuel, hrun⟩
  induction fuel using Nat.strong_induction_on with
  | _ fuel ih =>
    obtain ⟨fuel', hlt, hrun'⟩ := h.run_lt hrun
    exact ih fuel' hlt hrun'

/-- What a loop ends on, it ends on from every state on the way. -/
theorem Reaches.returns_of (h : Reaches step s s') (hend : Returns step s result) : Returns step s' result := by
  obtain rfl | h := (Relation.reflTransGen_iff_eq_or_transGen.mp h)
  · exact hend
  · obtain ⟨fuel, hrun⟩ := hend
    obtain ⟨fuel', -, hrun'⟩ := Continues.run_lt h hrun
    exact ⟨fuel', hrun'⟩

/-- A loop that never ends has a state for every number of turns, each a turn behind the one before. -/
theorem exists_walk (h : ∀ result, ¬ Returns step s result) :
    ∃ walk : Nat → σ, walk 0 = s ∧ ∀ n, step (walk n) = .inl (walk (n + 1)) := by
  have hnext : ∀ s', Reaches step s s' → ∃ s'', step s' = .inl s'' := by
    intro s' hreach
    cases hturn : step s' with
    | inl s'' => exact ⟨s'', rfl⟩
    | inr result => exact absurd (hreach.returns (Returns.of_inr hturn)) (h result)
  choose! next hturn using hnext
  have hreach : ∀ n, Reaches step s (next^[n] s) := by
    intro n
    induction n with
    | zero => exact Reaches.refl s
    | succ n ih =>
      rw [Function.iterate_succ_apply']
      exact ih.trans (Reaches.single (hturn _ ih))
  have hwalk : ∀ n, step (next^[n] s) = .inl (next^[n + 1] s) := by
    intro n
    rw [Function.iterate_succ_apply']
    exact hturn _ (hreach n)
  exact ⟨fun n => next^[n] s, rfl, hwalk⟩

theorem continues_walk {walk : Nat → σ} (h : ∀ n, step (walk n) = .inl (walk (n + 1))) {m n : Nat} (hlt : m < n) :
    Continues step (walk m) (walk n) := by
  induction n with
  | zero => omega
  | succ n ih =>
    obtain hlt | rfl := Nat.lt_succ_iff_lt_or_eq.mp hlt
    · exact Relation.TransGen.tail (ih hlt) (h n)
    · exact Relation.TransGen.single (h m)

/-- A loop through finitely many states fails to return just when it comes back to a state. -/
theorem not_returns_iff (hfinite : Set.Finite {s' | Reaches step s s'}) :
    (∀ result, ¬ Returns step s result) ↔ ∃ s', Reaches step s s' ∧ Continues step s' s' := by
  constructor
  · intro h
    obtain ⟨walk, hstart, hwalk⟩ := exists_walk h
    have hreach : ∀ n, Reaches step s (walk n) := by
      intro n
      cases n with
      | zero => exact hstart ▸ Reaches.refl _
      | succ n => exact hstart ▸ (continues_walk hwalk (Nat.succ_pos n)).to_reflTransGen
    obtain ⟨m, -, n, -, hne, hsame⟩ :=
      Set.infinite_univ.exists_ne_map_eq_of_mapsTo (fun n _ => hreach n) hfinite
    obtain hlt | hlt := Nat.lt_or_gt_of_ne hne
    · exact ⟨walk m, hreach m, by have := continues_walk hwalk hlt; rwa [← hsame] at this⟩
    · exact ⟨walk n, hreach n, by have := continues_walk hwalk hlt; rwa [hsame] at this⟩
  · rintro ⟨s', hreach, hback⟩ result hend
    exact hback.not_returns result (hreach.returns_of hend)

end Loop
