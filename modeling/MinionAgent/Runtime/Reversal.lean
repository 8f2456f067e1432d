import MinionAgent.Runtime.Fiber

/-!
# MinionAgent.Runtime.Reversal

Effects are reversed once, newest first: on a fiber and on a scope
(`_scoped_effect` in `runtime/context.py`, `Scope.dispose` in
`runtime/scope.py`).

A handle empties its slot by an assignment to the list it was created in, which
`dispose_all` clears at its end.  `effects_reversed_iff` says what that costs,
and what an effect costs that is created while its fiber unwinds.
-/

namespace MinionAgent

/-! ## A scope -/

/-- How far `Scope.dispose` is: not called; disposing the descendants, whose
failure it does not survive; or inside `dispose_all`. -/
inductive ScopePhase
  | live | descendants | aborted | unwinding
deriving DecidableEq

/-- `Scope`: the list of its effects, the first and only one, and how far its
disposal is. -/
structure Scope where
  phase : ScopePhase := .live
  disposables : Disposables := {}

/-- What one task does between two suspensions. -/
inductive ScopeEvent
  | dispose
  | descendantsEnded (raised : Bool)
  | effect
  | handle (effect : Nat)
  | disposerEnded (raised : Bool)
deriving DecidableEq

namespace Scope

/-- One step of one task; `none` where the event cannot happen. -/
def step (s : Scope) : ScopeEvent → Option Scope
  | .dispose => some (if s.phase = .live then { s with phase := .descendants } else s)
  | .descendantsEnded raised =>
    if s.phase = .descendants then
      if raised then
        some { s with phase := .aborted }
      else
        some { phase := .unwinding, disposables := s.disposables.beginDispose 0 }
    else
      none
  | .effect =>
    some (if (s.disposables.lists 0).disposed then s else { s with disposables := s.disposables.push 0 })
  | .handle e =>
    if e < s.disposables.effects.length then
      some { s with disposables := (s.disposables.handle? e).getD s.disposables }
    else
      none
  | .disposerEnded raised =>
    if s.phase = .unwinding ∧ (s.disposables.lists 0).progress ≠ .idle then
      some { s with disposables := s.disposables.resume 0 raised }
    else
      none

/-- What every run keeps: the one list is disposed from `dispose_all` on, and
no live effect escapes it. -/
structure Sound (s : Scope) : Prop where
  disposables : s.disposables.Sound
  count : s.disposables.count = 1
  owned : ∀ e, s.disposables.isLive e = true → s.disposables.Awaited e ∨ s.disposables.Waits 0 e
  idle : (s.disposables.lists 0).progress = .idle ↔ s.phase ≠ .unwinding

theorem sound_initial : Sound {} where
  disposables := Disposables.Sound.initial
  count := rfl
  owned := by simp [Disposables.isLive]
  idle := by simp

theorem sound_step {s s' : Scope} {event : ScopeEvent} (h : Sound s) (hstep : step s event = some s') : Sound s' := by
  cases event with
  | dispose =>
    rw [step] at hstep
    cases hstep
    split
    · next hlive => exact ⟨h.disposables, h.count, h.owned, by simp [h.idle, hlive]⟩
    · exact h
  | descendantsEnded raised =>
    rw [step] at hstep
    split at hstep
    · next hphase =>
      have hidle : (s.disposables.lists 0).progress = .idle := h.idle.mpr (by simp [hphase])
      split at hstep
      · cases hstep
        exact ⟨h.disposables, h.count, h.owned, by simp [hidle]⟩
      · cases hstep
        refine ⟨h.disposables.beginDispose 0, ?_, fun e hlive => ?_, ?_⟩
        · rw [Disposables.count_beginDispose, h.count]
        · exact .inl (h.disposables.awaited_beginDispose hidle h.owned hlive)
        · simp [Disposables.progress_beginDispose]
    · cases hstep
  | effect =>
    rw [step] at hstep
    cases hstep
    split
    · exact h
    · next hdisposed =>
      have hidle : (s.disposables.lists 0).progress = .idle := by simpa [DisposableList.disposed] using hdisposed
      refine ⟨h.disposables.push (by rw [h.count]; exact Nat.zero_lt_one) ?_, h.count, fun e hlive => ?_, ?_⟩
      · rintro ⟨raised, hraised⟩
        rw [hidle] at hraised
        cases hraised
      · rcases Disposables.isLive_push hlive with hwas | rfl
        · exact (h.owned e hwas).imp
            (·.of_frame (fun _ => Disposables.effects_push) (Disposables.progress_push _))
            (·.of_frame (fun _ => Disposables.effects_push) (Disposables.progress_push _))
        · exact .inr ⟨_, Disposables.effects_push_new _, by rw [Disposables.progress_push]; exact hidle⟩
      · rw [Disposables.progress_push]
        exact h.idle
  | handle e =>
    rw [step] at hstep
    split at hstep
    · cases hstep
      cases hhandle : s.disposables.handle? e with
      | none => exact h
      | some d' =>
        obtain ⟨heffects, hcount, hprogress, hlive⟩ := Disposables.handle?_frame hhandle
        refine ⟨h.disposables.handle hhandle, hcount.trans h.count, fun x hx => ?_, ?_⟩
        · rw [Option.getD_some, hlive, Bool.and_eq_true] at hx
          exact (h.owned x hx.1).imp (·.of_frame (by simp [heffects]) hprogress)
            (·.of_frame (by simp [heffects]) hprogress)
        · rw [Option.getD_some, hprogress]
          exact h.idle
    · cases hstep
  | disposerEnded raised =>
    rw [step] at hstep
    split at hstep
    · next hunwinding =>
      cases hstep
      refine ⟨h.disposables.resume 0 raised, ?_, fun e hlive => ?_, ?_⟩
      · rw [Disposables.count_resume, h.count]
      · refine .inl (h.disposables.awaited_resume (fun x hx => ?_) 0 raised hlive)
        rcases h.owned x hx with hawaited | ⟨-, -, hidle⟩
        · exact hawaited
        · exact absurd hidle hunwinding.2
      · have hprogress := Disposables.progress_resume 0 raised hunwinding.2
        simp [hprogress, hunwinding.1]
    · cases hstep

theorem sound_run {s : Scope} {events : List ScopeEvent} (hrun : Transition.run step {} events = some s) : Sound s :=
  Transition.run_preserves (fun _ _ _ h => sound_step h) hrun sound_initial

end Scope

/-! ## What the owner's disposal amounts to -/

namespace Disposables

/-- Every disposer was started. -/
def AllSettled (d : Disposables) : Prop := ∀ e < d.effects.length, d.settled e = true

/-- No disposer was started twice, and `dispose_all` started those of one list
in the reverse order of their creation. -/
def Reversed (d : Disposables) : Prop :=
  (d.started.map Prod.fst).Nodup ∧ d.unwound.Pairwise fun e e' => d.SameList e e' → e' < e

/-- A call of an effect's handle that raises nothing and starts nothing. -/
def NoOp (d : Disposables) (e : Nat) : Prop :=
  ∃ d', d.handle? e = some d' ∧ d'.started = d.started ∧ d'.effects = d.effects

/-- The handles of settled effects, and those of effects whose list was
unwound, are no-ops. -/
def HandlesAreNoOps (d : Disposables) : Prop :=
  ∀ e list slot : Nat, d.effects[e]? = some ⟨list, slot⟩ → (d.settled e = true ∨ d.isDone list) → d.NoOp e

/-- The handle of a settled effect is a no-op while the list is not cleared;
once it is, every handle raises. -/
theorem Sound.noOp_iff {d : Disposables} (h : d.Sound) {e list slot : Nat} (he : d.effects[e]? = some ⟨list, slot⟩)
    (hsettled : d.settled e = true ∨ d.isDone list) : d.NoOp e ↔ ¬ d.isDone list := by
  constructor
  · rintro ⟨d', hhandle, -⟩ hdone
    rw [handle?, he] at hhandle
    simp only [remove?, h.cleared list hdone, List.length_nil, Nat.not_lt_zero, if_false] at hhandle
    cases hhandle
  · intro hdone
    have hsettled : d.settled e = true := hsettled.resolve_right hdone
    have hdead : d.isLive e = false := by simp [isLive, hsettled]
    have hlt := (h.placed e list slot he hdone).1
    obtain ⟨l, hremove⟩ : ∃ l, d.remove? ⟨list, slot⟩ = some (d.setList list l) := ⟨_, if_pos hlt⟩
    have hrun : (d.setList list l).runDisposer e = d.setList list l := by
      rw [Disposables.runDisposer, isLive_setList, hdead]
      rfl
    refine ⟨d.setList list l, ?_, rfl, rfl⟩
    rw [handle?, he]
    simp only [hremove, Option.map_some, hrun]

theorem Sound.handlesAreNoOps_iff {d : Disposables} (h : d.Sound) :
    d.HandlesAreNoOps ↔ ∀ e list slot : Nat, d.effects[e]? = some ⟨list, slot⟩ → ¬ d.isDone list := by
  constructor
  · intro hnoop e list slot he hdone
    exact (h.noOp_iff he (.inr hdone)).mp (hnoop e list slot he (.inr hdone)) hdone
  · intro hopen e list slot he hsettled
    exact (h.noOp_iff he hsettled).mpr (hopen e list slot he)

theorem allSettled_iff {d : Disposables} : d.AllSettled ↔ ∀ e, d.isLive e = false := by
  constructor
  · intro h e
    by_cases hlt : e < d.effects.length
    · simp [isLive, h e hlt]
    · simp [isLive, hlt]
  · intro h e hlt
    simpa [isLive, hlt] using h e

end Disposables

/-- The states a fiber settles in. -/
def FiberState.isSettled : FiberState → Bool
  | .pending | .failed | .disposed => true
  | _ => false

/-- A settled fiber on which no effect was created during an unwind has
nothing left but what its unwinding lists have still ahead. -/
theorem Fiber.allSettled_iff {f : Fiber} (hsound : f.Sound) (hkept : f.Kept) (hstate : f.state.isSettled = true) :
    f.disposables.AllSettled ↔ ∀ list < f.disposables.count, f.disposables.Drained list := by
  rw [Disposables.allSettled_iff]
  constructor
  · intro h list _
    exact Disposables.drained_of_not_isLive h list
  · intro hdrained e
    by_contra hlive
    rw [Bool.not_eq_false] at hlive
    rcases hkept.owned e hlive with ⟨list, slot, below, failed, he, hrunning, hlt⟩ | hwaits
    · have hcount := hsound.disposables.counted e list slot he
      rw [hsound.disposables.not_isLive_of_drained he hrunning hlt (hdrained list hcount)] at hlive
      cases hlive
    · have hactive := (hkept.apart e hlive hwaits).1
      cases hstate' : f.state <;> simp [hstate', FiberState.isLive, FiberState.isSettled] at hactive hstate

/-- A scope whose `dispose_all` is over has no live effect. -/
theorem Scope.allSettled {s : Scope} (h : s.Sound) (hdone : s.disposables.isDone 0) : s.disposables.AllSettled := by
  obtain ⟨raised, hraised⟩ := hdone
  rw [Disposables.allSettled_iff]
  intro e
  by_contra hlive
  rw [Bool.not_eq_false] at hlive
  rcases h.owned e hlive with ⟨list, slot, below, failed, he, hrunning, hlt⟩ | ⟨slot, he, hidle⟩
  · have hcount := h.disposables.counted e list slot he
    rw [h.count, Nat.lt_one_iff] at hcount
    subst hcount
    rw [hraised] at hrunning
    cases hrunning
  · rw [hraised] at hidle
    cases hidle

/-- Effects are reversed once, newest first.  The handles are no-ops if and
only if no list with effects was unwound to its end.  A settled fiber on which
no effect was created during an unwind has started every disposer if and only
if no `dispose_all` has one left to start; a scope has when its `dispose_all`
is over. -/
theorem effects_reversed_iff (f : Fiber) (events : List FiberEvent) (s : Scope) (scopeEvents : List ScopeEvent)
    (hrun : Transition.run Fiber.step {} events = some f)
    (hrun' : Transition.run Scope.step {} scopeEvents = some s) :
    (f.disposables.Reversed ∧
      (f.disposables.HandlesAreNoOps ↔
        ∀ e list slot : Nat, f.disposables.effects[e]? = some ⟨list, slot⟩ → ¬ f.disposables.isDone list) ∧
      (Transition.Along Fiber.step Fiber.Quiet {} events → f.state.isSettled = true →
        (f.disposables.AllSettled ↔ ∀ list < f.disposables.count, f.disposables.Drained list))) ∧
    (s.disposables.Reversed ∧
      (s.disposables.HandlesAreNoOps ↔
        ∀ e list slot : Nat, s.disposables.effects[e]? = some ⟨list, slot⟩ → ¬ s.disposables.isDone list) ∧
      (s.disposables.isDone 0 → s.disposables.AllSettled)) := by
  have hfiber := Fiber.sound_run hrun
  have hscope := Scope.sound_run hrun'
  constructor
  · refine ⟨⟨hfiber.disposables.once, hfiber.disposables.descending⟩, hfiber.disposables.handlesAreNoOps_iff, ?_⟩
    intro hquiet hstate
    exact Fiber.allSettled_iff hfiber (Fiber.kept_run hrun hquiet) hstate
  · exact ⟨⟨hscope.disposables.once, hscope.disposables.descending⟩, hscope.disposables.handlesAreNoOps_iff,
      Scope.allSettled hscope⟩

/-- A fiber with one effect that is loaded and disposed, and a scope with two,
one of which is disposed by its handle. -/
theorem effects_reversed_each :
    (∃ f, Transition.run Fiber.step {} [.load, .effect, .bodyReturned 0 true, .dispose, .disposerEnded 1 false] =
      some f ∧
      f.disposables.Reversed) ∧
    (∃ s, Transition.run Scope.step {}
        [.effect, .effect, .handle 0, .dispose, .descendantsEnded false, .disposerEnded false] = some s ∧
      s.disposables.Reversed ∧ s.disposables.AllSettled) := by
  obtain ⟨f, hrun⟩ : ∃ f, Transition.run Fiber.step {}
      [.load, .effect, .bodyReturned 0 true, .dispose, .disposerEnded 1 false] = some f := ⟨_, rfl⟩
  obtain ⟨s, hrun'⟩ : ∃ s, Transition.run Scope.step {}
      [.effect, .effect, .handle 0, .dispose, .descendantsEnded false, .disposerEnded false] = some s := ⟨_, rfl⟩
  obtain ⟨⟨hreversed, -⟩, ⟨hreversed', -, hsettled⟩⟩ := effects_reversed_iff f _ s _ hrun hrun'
  refine ⟨⟨f, hrun, hreversed⟩, ⟨s, hrun', hreversed', hsettled ⟨false, ?_⟩⟩⟩
  cases hrun'
  rfl

/-- A fiber with one effect is loaded and unloaded: the effect's handle raises
from then on. -/
theorem handle_raises_after_unload :
    ¬ ∀ (f : Fiber) (events : List FiberEvent), Transition.run Fiber.step {} events = some f →
      f.disposables.HandlesAreNoOps := by
  intro h
  obtain ⟨d', hhandle, -⟩ := h _ [.load, .effect, .bodyReturned 0 true, .unload, .disposerEnded 1 false] rfl 0 0 0 rfl
    (.inl rfl)
  cases hhandle

end MinionAgent
