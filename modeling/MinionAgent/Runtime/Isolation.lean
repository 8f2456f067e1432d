import MinionAgent.Library.Table
import MinionAgent.Runtime.FiberContext
import MinionAgent.Runtime.Lifecycle

/-!
# MinionAgent.Runtime.Isolation

When the contexts of closed generations stay out of the fiber.

* `FiberHandle.Owned` — a store that accepts effects is that of the current
  generation;
* `FiberContext.Isolated` — nothing was registered through the context of a
  closed generation, and no service of a cleaned generation is registered;
* `FiberContext.Confined` — the steps that keep it so;
* `isolated_iff` — a run is isolated if and only if all its steps are
  confined.
-/

namespace MinionAgent.Rust

namespace FiberHandle

/-! ## Stores of the fiber -/

/-- Between its closing and the end of its cleanup. -/
def Shut : TaskPoint → Prop
  | .cleaning _ | .settling _ _ => True
  | _ => False

/-- Only the store of the current generation accepts effects, and none does
while it is cleaned up. -/
structure Owned (s : FiberHandle) : Prop where
  opened : ∀ n : Nat, s.stores[n]? = some true →
    (s.state = .loading ∨ s.state = .active) ∧ ∃ g, s.current = some g ∧ g.store = n
  bounded : ∀ g, s.current = some g → g.store < s.stores.length
  shut : ∀ (t : Nat) (task : Task), s.tasks[t]? = some task → Shut task.point → ∀ n : Nat, s.stores[n]? ≠ some true

variable {s s' x : FiberHandle} {t : Nat} {task : Task} {p point : TaskPoint}

theorem owned_initial : Owned {} where
  opened := by simp
  bounded := by simp
  shut := by simp

/-- How a step changes the stores: not at all, by closing one, or by opening
one more. -/
inductive Shrinks (s x : FiberHandle) : Prop
  | same (h : x.stores = s.stores)
  | close (n : Nat) (h : x.stores = s.stores.set n false)
  | more (h : x.stores = s.stores ++ [true])

theorem Shrinks.closed (h : Shrinks s x) {n : Nat} (hclosed : s.stores[n]? = some false) :
    x.stores[n]? = some false := by
  cases h with
  | same h => rw [h, hclosed]
  | close m h =>
    rw [h, List.getElem?_set]
    have hlength := (List.getElem?_eq_some_iff.mp hclosed).1
    grind
  | more h =>
    rw [h, List.getElem?_append_left (List.getElem?_eq_some_iff.mp hclosed).1]
    exact hclosed

theorem Shrinks.length_le (h : Shrinks s x) : s.stores.length ≤ x.stores.length := by
  cases h with
  | same h => rw [h]
  | close m h => simp [h]
  | more h => simp [h]

theorem Shrinks.congr {y : FiberHandle} (h : Shrinks s x) (hstores : y.stores = x.stores) : Shrinks s y := by
  cases h with
  | same h => exact .same (hstores.trans h)
  | close n h => exact .close n (hstores.trans h)
  | more h => exact .more (hstores.trans h)

/-- A change of the lifecycle after which every open store is the current
generation's. -/
structure Holds (s x : FiberHandle) : Prop where
  opened : ∀ n : Nat, x.stores[n]? = some true →
    (x.state = .loading ∨ x.state = .active) ∧ ∃ g, x.current = some g ∧ g.store = n
  bounded : ∀ g, x.current = some g → g.store < x.stores.length
  tasks : x.tasks = s.tasks

theorem Owned.holds (h : Owned s) : Holds s s := ⟨h.opened, h.bounded, rfl⟩

/-- Closing the store of the current generation leaves no store open. -/
theorem Owned.shutCurrent (h : Owned s) {g : Generation} (hcurrent : s.current = some g) (n : Nat) :
    (s.stores.set g.store false)[n]? ≠ some true := by
  intro hopen
  rw [List.getElem?_set] at hopen
  split at hopen
  · split at hopen <;> cases hopen
  · next hne =>
    obtain ⟨-, g', hg', hstore⟩ := h.opened n hopen
    rw [hcurrent] at hg'
    cases hg'
    exact hne hstore

theorem Owned.closeGeneration (h : Owned s) (hstores : x.stores = s.stores) (htasks : x.tasks = s.tasks)
    {g : Generation} (hcurrent : s.current = some g) : Holds s (x.closeGeneration g) := by
  refine ⟨fun n hopen => ?_, fun g' hg' => ?_, htasks⟩
  · rw [show (x.closeGeneration g).stores = s.stores.set g.store false by rw [← hstores]; rfl] at hopen
    exact absurd hopen (h.shutCurrent hcurrent n)
  · cases hg'
    simpa [FiberHandle.closeGeneration, FiberHandle.shut, hstores] using h.bounded g hcurrent

/-- A change after which no store is open. -/
theorem holds_of_shut (hshut : ∀ n : Nat, x.stores[n]? ≠ some true)
    (hbounded : ∀ g, x.current = some g → g.store < x.stores.length) (htasks : x.tasks = s.tasks) : Holds s x :=
  ⟨fun n hopen => absurd hopen (hshut n), hbounded, htasks⟩

/-- The task in flight goes on. -/
theorem Owned.modifyTask (hsound : Sound s) (ht : s.tasks[t]? = some task) (hpoint : task.point ≠ .finished)
    (hx : Holds s x) (f : Task → Task) (hshut : Shut (f task).point → ∀ n : Nat, x.stores[n]? ≠ some true) :
    Owned { x with tasks := x.tasks.modify t f } := by
  refine ⟨hx.opened, hx.bounded, fun t' task' ht' hpoint' => ?_⟩
  change (x.tasks.modify t f)[t']? = some task' at ht'
  rw [hx.tasks, List.getElem?_modify] at ht'
  by_cases heq : t = t'
  · subst heq
    rw [ht] at ht'
    have htask : f task = task' := by simpa using ht'
    exact hshut (htask ▸ hpoint')
  · have hold : s.tasks[t']? = some task' := by simpa [heq] using ht'
    have hunfinished : task'.point ≠ .finished := by
      intro hfinished
      rw [hfinished] at hpoint'
      exact hpoint'
    have hsame := (hsound.single t task ht hpoint).symm.trans (hsound.single t' task' hold hunfinished)
    exact absurd (Option.some.inj hsame) heq

theorem Owned.goTo (hsound : Sound s) (ht : s.tasks[t]? = some task) (hp : task.point = p) (hx : Holds s x)
    (hshut : Shut point → ∀ n : Nat, x.stores[n]? ≠ some true) (hunfinished : p ≠ .finished) :
    Owned (x.goTo t point) :=
  Owned.modifyTask hsound ht (hp ▸ hunfinished) hx _ hshut

theorem Owned.setLocked (h : Owned s) (locked : Option Nat) : Owned { s with locked } :=
  ⟨h.opened, h.bounded, h.shut⟩

theorem Owned.complete (hsound : Sound s) (ht : s.tasks[t]? = some task) (hp : task.point = p) (hx : Holds s x)
    {outcome : TransitionOutcome} (hunfinished : p ≠ .finished) : Owned (x.complete t outcome) := by
  have hpublishing : Owned (x.goTo t (.publishing outcome)) := Owned.goTo hsound ht hp hx False.elim hunfinished
  exact hpublishing.setLocked none

/-- A task that is over without a transition. -/
theorem Owned.done (hsound : Sound s) (h : Owned s) (ht : s.tasks[t]? = some task) (hp : task.point = p)
    {outcome : TransitionOutcome} (hunfinished : p ≠ .finished) :
    Owned (s.complete t outcome) ∧ Shrinks s (s.complete t outcome) :=
  ⟨Owned.complete hsound ht hp h.holds hunfinished, .same rfl⟩

theorem stores_transitionTo (s : FiberHandle) (state : FiberState) : (s.transitionTo state).stores = s.stores := by
  rw [FiberHandle.transitionTo]
  split <;> rfl

theorem tasks_transitionTo (s : FiberHandle) (state : FiberState) : (s.transitionTo state).tasks = s.tasks := by
  rw [FiberHandle.transitionTo]
  split <;> rfl

/-- No store is open outside of `Loading` and `Active`. -/
theorem Owned.shut_of_state (h : Owned s) (hloading : s.state ≠ .loading) (hactive : s.state ≠ .active)
    (n : Nat) : s.stores[n]? ≠ some true := by
  intro hopen
  rcases (h.opened n hopen).1 with hstate | hstate
  · exact hloading hstate
  · exact hactive hstate

theorem owned_load (hsound : Sound s) (h : Owned s) (ht : s.tasks[t]? = some task)
    (hpoint : task.point = .loading) : Owned (s.load t) ∧ Shrinks s (s.load t) := by
  have hpending : s.state = .pending := hsound.fitsAt ht hpoint
  have hshut := h.shut_of_state (by simp [hpending]) (by simp [hpending])
  rw [FiberHandle.load]
  split
  · exact Owned.done hsound h ht hpoint (by simp)
  · split
    · exact Owned.done hsound h ht hpoint (by simp)
    · have hstores : (s.newGeneration.transitionTo .loading).stores = s.stores ++ [true] := stores_transitionTo _ _
      have hcurrent : (s.newGeneration.transitionTo .loading).current =
          some { id := s.generation + 1, store := s.stores.length } := current_transitionTo _ _
      have hx : Holds s (s.newGeneration.transitionTo .loading) := by
        refine ⟨fun n hopen => ⟨.inl (state_transitionTo _ _), _, hcurrent, ?_⟩, fun g hg => ?_, tasks_transitionTo _ _⟩
        · rw [hstores, List.getElem?_append] at hopen
          split at hopen
          · exact absurd hopen (hshut n)
          · have hlength := (List.getElem?_eq_some_iff.mp hopen).1
            simp only [List.length_cons, List.length_nil] at hlength
            show s.stores.length = n
            omega
        · rw [hcurrent] at hg
          cases hg
          rw [hstores, List.length_append]
          exact Nat.lt_succ_self _
      exact ⟨Owned.goTo hsound ht hpoint hx False.elim (by simp), .more hstores⟩

theorem owned_tryCommitActive (hsound : Sound s) (h : Owned s) {generation : Nat} {visible : Bool}
    (ht : s.tasks[t]? = some task) (hpoint : task.point = .commit generation visible) :
    Owned (s.tryCommitActive t generation visible) ∧ Shrinks s (s.tryCommitActive t generation visible) := by
  have hloading : s.state = .loading := (hsound.fitsAt ht hpoint).1
  rw [FiberHandle.tryCommitActive]
  split
  · split
    · have hstores := stores_transitionTo s .active
      have hx : Holds s (s.transitionTo .active) := by
        refine ⟨fun n hopen => ⟨.inr (state_transitionTo _ _), ?_⟩, fun g hg => ?_, tasks_transitionTo _ _⟩
        · rw [hstores] at hopen
          rw [current_transitionTo]
          exact (h.opened n hopen).2
        · rw [current_transitionTo] at hg
          rw [hstores]
          exact h.bounded g hg
      exact ⟨Owned.complete hsound ht hpoint hx (by simp), .same hstores⟩
    · exact ⟨Owned.goTo hsound ht hpoint h.holds False.elim (by simp), .same rfl⟩
  · obtain ⟨g, hcurrent, hclose, -⟩ := hsound.core.closeCurrentGeneration (x := { s with lost := true }) (.inr hloading)
      ⟨rfl, rfl, rfl, rfl⟩
    have hx := h.closeGeneration (x := { s with lost := true }) rfl rfl hcurrent
    rw [hclose]
    exact ⟨Owned.goTo hsound ht hpoint hx False.elim (by simp), .close g.store rfl⟩

theorem owned_closeLoading (hsound : Sound s) (h : Owned s) {finish : Finish} (ht : s.tasks[t]? = some task)
    (hpoint : task.point = .closing finish) :
    Owned (s.closeLoading t finish) ∧ Shrinks s (s.closeLoading t finish) := by
  rw [FiberHandle.closeLoading]
  split
  · next g hcurrent =>
    split
    · have hx : Holds s (s.closeGeneration g) := h.closeGeneration rfl rfl hcurrent
      exact ⟨Owned.goTo hsound ht hpoint hx (fun _ => h.shutCurrent hcurrent) (by simp), .close g.store rfl⟩
    · exact Owned.done hsound h ht hpoint (by simp)
  · exact Owned.done hsound h ht hpoint (by simp)

theorem owned_settleLoading (hsound : Sound s) (h : Owned s) {finish : Finish} {cleanupFailed : Bool}
    (ht : s.tasks[t]? = some task) (hpoint : task.point = .settling finish cleanupFailed) :
    Owned (s.settleLoading t finish cleanupFailed) ∧ Shrinks s (s.settleLoading t finish cleanupFailed) := by
  have hshut := h.shut t task ht (by rw [hpoint]; trivial)
  have hstores : ((s.dropGeneration finish.generation).transitionTo (s.targetOf finish.target)).stores = s.stores :=
    stores_transitionTo _ _
  have hx : Holds s ((s.dropGeneration finish.generation).transitionTo (s.targetOf finish.target)) := by
    refine holds_of_shut (fun n => hstores ▸ hshut n) (fun g hg => ?_) (tasks_transitionTo _ _)
    rw [current_transitionTo, dropGeneration] at hg
    simp only at hg
    split at hg
    · cases hg
    · rw [hstores]
      exact h.bounded g hg
  exact ⟨Owned.complete hsound ht hpoint hx (by simp), .same hstores⟩

theorem owned_unload (hsound : Sound s) (h : Owned s) {disposing : Bool} (ht : s.tasks[t]? = some task)
    (hpoint : task.point = .unloading disposing) : Owned (s.unload t disposing) ∧ Shrinks s (s.unload t disposing) := by
  rw [FiberHandle.unload]
  split
  · exact Owned.done hsound h ht hpoint (by simp)
  · split
    · next g hcurrent =>
      have hstores : ((s.leaveGeneration g disposing).transitionTo .unloading).stores = s.stores.set g.store false :=
        stores_transitionTo _ _
      have hx : Holds s ((s.leaveGeneration g disposing).transitionTo .unloading) := by
        refine holds_of_shut (fun n => hstores ▸ h.shutCurrent hcurrent n) (fun g' hg' => ?_) (tasks_transitionTo _ _)
        rw [current_transitionTo] at hg'
        cases hg'
        rw [hstores, List.length_set]
        exact h.bounded g hcurrent
      exact ⟨Owned.goTo hsound ht hpoint hx False.elim (by simp), .close g.store hstores⟩
    · exact Owned.done hsound h ht hpoint (by simp)

/-- A settled fiber gives its generation up. -/
theorem owned_settle (hsound : Sound s) (h : Owned s) (ht : s.tasks[t]? = some task) (hp : task.point = p)
    (hunfinished : p ≠ .finished) (hloading : s.state ≠ .loading) (hactive : s.state ≠ .active)
    (state : FiberState) (outcome : TransitionOutcome) :
    Owned (({ s with current := none }.transitionTo state).complete t outcome) ∧
      Shrinks s (({ s with current := none }.transitionTo state).complete t outcome) := by
  have hstores : ({ s with current := none }.transitionTo state).stores = s.stores := stores_transitionTo _ _
  have hx : Holds s ({ s with current := none }.transitionTo state) := by
    refine holds_of_shut (fun n => ?_) (fun g hg => ?_) (tasks_transitionTo _ _)
    · rw [hstores]
      exact h.shut_of_state hloading hactive n
    · rw [current_transitionTo] at hg
      cases hg
  exact ⟨Owned.complete hsound ht hp hx hunfinished, .same hstores⟩

theorem owned_taskStep (hsound : Sound s) (h : Owned s) (ht : s.tasks[t]? = some task)
    (hstep : s.taskStep t task = some s') : Owned s' ∧ Shrinks s s' := by
  by_cases hfinished : task.point = .finished
  · simp [taskStep, hfinished] at hstep
  have hmove {point : TaskPoint} (hshut : ¬ Shut point) : Owned (s.goTo t point) ∧ Shrinks s (s.goTo t point) :=
    ⟨Owned.goTo hsound ht rfl h.holds (fun h => absurd h hshut) hfinished, .same rfl⟩
  have hdone {outcome : TransitionOutcome} : Owned (s.complete t outcome) ∧ Shrinks s (s.complete t outcome) :=
    Owned.done hsound h ht rfl hfinished
  have hfits := hsound.fits t task ht
  cases hpoint : task.point
  all_goals rw [hpoint] at hfits
  all_goals simp only [taskStep, hpoint, Option.some.injEq, reduceCtorEq] at hstep
  case loading => exact hstep ▸ owned_load hsound h ht hpoint
  case commit => exact hstep ▸ owned_tryCommitActive hsound h ht hpoint
  case closing => exact hstep ▸ owned_closeLoading hsound h ht hpoint
  case settling => exact hstep ▸ owned_settleLoading hsound h ht hpoint
  case unloading => exact hstep ▸ owned_unload hsound h ht hpoint
  case settlingUnload =>
    have hunloading : s.state = .unloading := hfits
    exact hstep ▸ owned_settle hsound h ht rfl hfinished (by simp [hunloading]) (by simp [hunloading]) _ _
  case retire =>
    have hstate : s.state = .pending ∨ s.state = .failed := hfits
    exact hstep ▸ owned_settle hsound h ht rfl hfinished (by grind) (by grind) _ _
  case publishing => exact hstep ▸ ⟨Owned.modifyTask hsound ht hfinished h.holds _ False.elim, .same rfl⟩
  case clearing =>
    have hgoTo : Owned (s.goTo t .finished) := (hmove id).1
    exact hstep ▸ ⟨⟨hgoTo.opened, hgoTo.bounded, hgoTo.shut⟩, .same rfl⟩
  case acquire =>
    split at hstep
    · cases hstep
      have henter : Owned (s.goTo t .enter) := (hmove id).1
      exact ⟨henter.setLocked (some t), .same rfl⟩
    · cases hstep
  all_goals grind [Shut]

theorem owned_initializerStep (hsound : Sound s) (h : Owned s) {outcome : InitializerOutcome}
    (ht : s.tasks[t]? = some task) (hstep : s.initializerStep t task outcome = some s') : Owned s' ∧ Shrinks s s' := by
  rw [initializerStep] at hstep
  split at hstep
  · next generation hpoint =>
    have hmove {point : TaskPoint} (hshut : ¬ Shut point) : Owned (s.goTo t point) ∧ Shrinks s (s.goTo t point) :=
      ⟨Owned.goTo hsound ht hpoint h.holds (fun h => absurd h hshut) (by simp), .same rfl⟩
    grind [Shut]
  · cases hstep

theorem owned_cleanupStep (hsound : Sound s) (h : Owned s) {failed : Bool} (ht : s.tasks[t]? = some task)
    (hstep : s.cleanupStep t task failed = some s') : Owned s' ∧ Shrinks s s' := by
  rw [cleanupStep] at hstep
  split at hstep
  · next finish hpoint =>
    cases hstep
    have hshut := h.shut t task ht (by rw [hpoint]; trivial)
    exact ⟨Owned.goTo hsound ht hpoint h.holds (fun _ => hshut) (by simp), .same rfl⟩
  · next hpoint =>
    cases hstep
    exact ⟨Owned.goTo hsound ht hpoint h.holds False.elim (by simp), .same rfl⟩
  · cases hstep

/-- A change that opens no store. -/
theorem Holds.owned (h : Owned s) (hx : Holds s x)
    (hopen : ∀ n : Nat, x.stores[n]? = some true → s.stores[n]? = some true) : Owned x := by
  refine ⟨hx.opened, hx.bounded, fun t task ht hpoint n hstore => ?_⟩
  rw [hx.tasks] at ht
  exact h.shut t task ht hpoint n (hopen n hstore)

theorem Owned.closeSignal (hsound : Sound s) (h : Owned s) (hstate : s.state = .active ∨ s.state = .loading)
    (hx : Flags s x) (hstores : x.stores = s.stores) :
    Owned x.closeCurrentGeneration.1 ∧ Shrinks s x.closeCurrentGeneration.1 := by
  obtain ⟨g, hcurrent, hclose, -⟩ :=
    hsound.core.closeCurrentGeneration hstate ⟨hx.state, hx.current, hx.generation, hx.trace⟩
  have hclosed : (x.closeGeneration g).stores = s.stores.set g.store false := by
    rw [← hstores]
    rfl
  rw [hclose]
  refine ⟨(h.closeGeneration hstores hx.tasks hcurrent).owned h fun n hopen => ?_, .close g.store hclosed⟩
  rw [hclosed] at hopen
  exact absurd hopen (h.shutCurrent hcurrent n)

/-- A change of the flags alone. -/
theorem Owned.flags (h : Owned s) (hx : Flags s x) (hstores : x.stores = s.stores) : Owned x ∧ Shrinks s x := by
  refine ⟨⟨fun n hopen => ?_, fun g hg => ?_, fun t task ht hpoint n => ?_⟩, .same hstores⟩
  · rw [hstores] at hopen
    rw [hx.state, hx.current]
    exact h.opened n hopen
  · rw [hx.current] at hg
    rw [hstores]
    exact h.bounded g hg
  · rw [hx.tasks] at ht
    rw [hstores]
    exact h.shut t task ht hpoint n

theorem owned_signalDependencyChange (hsound : Sound s) (h : Owned s) (visible : Bool) :
    Owned (s.signalDependencyChange visible).1 ∧ Shrinks s (s.signalDependencyChange visible).1 := by
  have hlost : Flags s { s with lost := true } := ⟨rfl, rfl, rfl, rfl, rfl, rfl, rfl, id⟩
  have hinvalid : Flags s { s with lost := true, dependencyInvalidated := true } :=
    ⟨rfl, rfl, rfl, rfl, rfl, rfl, rfl, id⟩
  rw [FiberHandle.signalDependencyChange]
  split
  · exact ⟨h, .same rfl⟩
  · split
    · next hstate => exact h.closeSignal hsound (.inl hstate) hinvalid rfl
    · next hstate => exact h.closeSignal hsound (.inr hstate) hlost rfl
    all_goals exact h.flags hlost rfl

theorem owned_requestDisposal (hsound : Sound s) (h : Owned s) :
    Owned s.requestDisposal.1 ∧ Shrinks s s.requestDisposal.1 := by
  have hflags : Flags s { s with lost := true, disposeRequested := true } :=
    ⟨rfl, rfl, rfl, rfl, rfl, rfl, rfl, fun _ => rfl⟩
  rw [FiberHandle.requestDisposal]
  split
  · next hstate => exact h.closeSignal hsound (.inl hstate) hflags rfl
  · next hstate => exact h.closeSignal hsound (.inr hstate) hflags rfl
  all_goals exact h.flags hflags rfl

theorem Owned.setCalls (h : Owned s) (calls : List DriveCall) : Owned { s with calls } :=
  ⟨h.opened, h.bounded, h.shut⟩

/-- A new transition. -/
theorem Owned.start (h : Owned s) (request : LifecycleRequest) (inFlight : Option Nat) :
    Owned { s with tasks := s.tasks ++ [Task.mk request .acquire none], inFlight } := by
  refine ⟨h.opened, h.bounded, fun t task ht hpoint => ?_⟩
  rcases Table.getElem?_concat_cases ht with ht | ⟨-, rfl⟩
  · exact h.shut t task ht hpoint
  · exact hpoint.elim

theorem owned_callStep (hsound : Sound s) (h : Owned s) {c : Nat} {call : DriveCall}
    (hstep : s.callStep c call = some s') : Owned s' ∧ Shrinks s s' := by
  rw [callStep] at hstep
  split at hstep
  · next visible hpoint =>
    obtain ⟨howned, hshrinks⟩ := owned_signalDependencyChange hsound h visible
    split at hstep
    · next x hx =>
      rw [hx] at howned hshrinks
      cases hstep
      exact ⟨howned.setCalls _, hshrinks.congr rfl⟩
    · next x hx =>
      rw [hx] at howned hshrinks
      cases hstep
      exact ⟨howned.setCalls _, hshrinks.congr rfl⟩
  · cases hstep
    rw [joinOrStart]
    split
    · exact ⟨h.setCalls _, .same rfl⟩
    · exact ⟨(h.start _ _).setCalls _, .same rfl⟩
  · split at hstep
    · cases hstep
      exact ⟨h.setCalls _, .same rfl⟩
    · cases hstep
      exact ⟨h.setCalls _, .same rfl⟩
    · cases hstep
  · cases hstep
    exact ⟨h.setCalls _, .same rfl⟩
  · cases hstep
  · cases hstep

/-- Every step of the fiber keeps its stores in order. -/
theorem owned_step {event : HandleEvent} (hsound : Sound s) (h : Owned s) (hstep : s.step event = some s') :
    Owned s' ∧ Shrinks s s' := by
  cases event with
  | setVisible visible =>
    cases hstep
    exact ⟨⟨h.opened, h.bounded, h.shut⟩, .same rfl⟩
  | reconcile =>
    cases hstep
    exact ⟨h.setCalls _, .same rfl⟩
  | dependenciesChanged =>
    cases hstep
    exact ⟨h.setCalls _, .same rfl⟩
  | dispose =>
    obtain ⟨howned, hshrinks⟩ := owned_requestDisposal hsound h
    rw [step] at hstep
    split at hstep
    · next x hx =>
      rw [hx] at howned hshrinks
      cases hstep
      exact ⟨howned.setCalls _, hshrinks.congr rfl⟩
    · next x hx =>
      rw [hx] at howned hshrinks
      cases hstep
      exact ⟨howned.setCalls _, hshrinks.congr rfl⟩
  | call c =>
    rw [step] at hstep
    split at hstep
    · exact owned_callStep hsound h hstep
    · cases hstep
  | task t =>
    rw [step] at hstep
    split at hstep
    · next task ht => exact owned_taskStep hsound h ht hstep
    · cases hstep
  | initialized t outcome =>
    rw [step] at hstep
    split at hstep
    · next task ht => exact owned_initializerStep hsound h ht hstep
    · cases hstep
  | cleaned t failed =>
    rw [step] at hstep
    split at hstep
    · next task ht => exact owned_cleanupStep hsound h ht hstep
    · cases hstep

end FiberHandle

namespace FiberContext

/-! ## Isolation -/

/-- Nothing was registered in a store of the fiber through the context of a
closed generation, and every service registered through the context of a
generation is revoked when its cleanup has finished. -/
structure Isolated (s : FiberContext) : Prop where
  timely : ∀ slot ∈ s.slots, slot.store ≠ none → slot.late = false
  revoked : ∀ entry ∈ s.registrations, ∀ n, entry.context = some n → n ∉ s.cleaned

/-- The steps that keep a fiber isolated: a `provide` through the context of a
closed generation does not find an open store and a free name, and a cleanup
does not finish between the two halves of a handle's disposal. -/
def Confined (s : FiberContext) : ContextEvent → Prop
  | .commit c => ∀ call store, s.provides[c]? = some call → call.point = .resolved store →
      s.closed call.context = true → s.admits call.service store = false
  | .fiber (.cleaned _ _) => ∀ u, s.unwind = some u → ∀ entry ∈ s.registrations, entry.context = some u.store →
      ∀ slot ∈ s.slots, slot.service = some (entry.name, entry.id) → slot.slot ≠ .taken
  | _ => True

/-- What every run keeps. -/
structure Tidy (s : FiberContext) : Prop where
  sound : s.fiber.Sound
  owned : s.fiber.Owned
  calls : ∀ call ∈ s.provides, call.context < s.fiber.stores.length
  own : ∀ slot ∈ s.slots, slot.late = false → ∀ n, slot.store = some n → n = slot.context
  entered : ∀ entry ∈ s.registrations, ∀ n, entry.context = some n →
    ∃ slot ∈ s.slots, slot.context = n ∧ slot.service = some (entry.name, entry.id) ∧ slot.slot ≠ .done ∧
      slot.store ≠ none
  unwinding : ∀ u, s.unwind = some u → s.closed u.store = true ∧
    ∀ (i : Nat) (slot : EffectSlot), s.slots[i]? = some slot → slot.store = some u.store → slot.slot = .held →
      i ∈ u.remaining
  cleaned : ∀ n ∈ s.cleaned, s.closed n = true

/-- A fiber that was mounted, in a scope or not. -/
def mounted (scope : Option Bool) : FiberContext := { scope }

theorem tidy_mounted (scope : Option Bool) : Tidy (mounted scope) where
  sound := FiberHandle.sound_initial
  owned := FiberHandle.owned_initial
  calls := by simp [mounted]
  own := by simp [mounted]
  entered := by simp [mounted]
  unwinding := by simp [mounted]
  cleaned := by simp [mounted]

theorem isolated_mounted (scope : Option Bool) : Isolated (mounted scope) where
  timely := by simp [mounted]
  revoked := by simp [mounted]

/-! ## What every run keeps -/

variable {s s' : FiberContext}

/-- Closed generations stay closed. -/
theorem closed_mono {fiber : FiberHandle} (h : s.fiber.Shrinks fiber) {n : Nat} (hclosed : s.closed n = true) :
    { s with fiber }.closed n = true := by
  simp only [closed, beq_iff_eq] at hclosed ⊢
  exact h.closed hclosed

/-- A step of the fiber. -/
theorem Tidy.setFiber (h : Tidy s) {fiber : FiberHandle} (hsound : fiber.Sound) (howned : fiber.Owned)
    (hshrinks : s.fiber.Shrinks fiber) : Tidy { s with fiber } where
  sound := hsound
  owned := howned
  calls call hcall := (h.calls call hcall).trans_le hshrinks.length_le
  own := h.own
  entered := h.entered
  unwinding u hu := ⟨closed_mono hshrinks (h.unwinding u hu).1, (h.unwinding u hu).2⟩
  cleaned n hn := closed_mono hshrinks (h.cleaned n hn)

theorem tidy_fiber (h : Tidy s) {event : HandleEvent} {fiber : FiberHandle}
    (hstep : s.fiber.step event = some fiber) : Tidy { s with fiber } := by
  obtain ⟨howned, hshrinks⟩ := FiberHandle.owned_step h.sound h.owned hstep
  exact h.setFiber (FiberHandle.sound_step h.sound hstep) howned hshrinks

theorem mem_modify {α : Type} {l : List α} {i : Nat} {f : α → α} {x : α} (h : x ∈ l.modify i f) :
    x ∈ l ∨ ∃ y, l[i]? = some y ∧ x = f y := by
  obtain ⟨j, hj⟩ := List.mem_iff_getElem?.mp h
  rw [List.getElem?_modify] at hj
  split at hj
  · next heq =>
    subst heq
    obtain ⟨y, hy, hfy⟩ := Option.map_eq_some_iff.mp hj
    exact .inr ⟨y, hy, hfy.symm⟩
  · exact .inl (List.mem_of_getElem? (by simpa using hj))

theorem mem_modify_of_mem {α : Type} {l : List α} {i : Nat} {f : α → α} {y : α} (h : y ∈ l) :
    l[i]? = some y ∧ f y ∈ l.modify i f ∨ y ∈ l.modify i f := by
  obtain ⟨j, hj⟩ := List.mem_iff_getElem?.mp h
  by_cases heq : i = j
  · subst heq
    exact .inl ⟨hj, List.mem_of_getElem? (i := i) (by simp [hj])⟩
  · exact .inr (List.mem_of_getElem? (i := j) (by simpa [List.getElem?_modify, heq] using hj))

theorem Tidy.setUnwind (h : Tidy s) {unwind : Option Unwind}
    (hunwind : ∀ u, unwind = some u → s.closed u.store = true ∧ ∀ (i : Nat) (slot : EffectSlot),
      s.slots[i]? = some slot → slot.store = some u.store → slot.slot = .held → i ∈ u.remaining) :
    Tidy { s with unwind } :=
  ⟨h.sound, h.owned, h.calls, h.own, h.entered, hunwind, h.cleaned⟩

/-- A slot other than a held one is not held by the unwind's account either. -/
theorem held_of_modify {i j : Nat} {state : SlotState} {slot : EffectSlot} (hstate : state ≠ .held)
    (hj : (s.slots.modify i fun slot => { slot with slot := state })[j]? = some slot)
    (hheld : slot.slot = .held) : i ≠ j ∧ s.slots[j]? = some slot := by
  by_cases heq : i = j
  · subst heq
    rw [List.getElem?_modify_eq] at hj
    obtain ⟨slot', -, hslot⟩ := Option.map_eq_some_iff.mp hj
    rw [← hslot] at hheld
    exact absurd hheld hstate
  · exact ⟨heq, by simpa [List.getElem?_modify, heq] using hj⟩

theorem Tidy.takeDisposer (h : Tidy s) (i : Nat) : Tidy (s.takeDisposer i) := by
  refine ⟨h.sound, h.owned, h.calls, fun slot hslot => ?_, fun entry hentry n hn => ?_, fun u hu => ?_, h.cleaned⟩
  · rcases mem_modify hslot with hold | ⟨slot', hslot', rfl⟩
    · exact h.own slot hold
    · exact h.own slot' (List.mem_of_getElem? hslot')
  · obtain ⟨slot, hslot, hcontext, hservice, hdone, hstore⟩ := h.entered entry hentry n hn
    rcases mem_modify_of_mem (i := i) (f := fun slot => { slot with slot := .taken }) hslot with ⟨-, hnew⟩ | hnew
    · exact ⟨_, hnew, hcontext, hservice, SlotState.noConfusion, hstore⟩
    · exact ⟨slot, hnew, hcontext, hservice, hdone, hstore⟩
  · refine ⟨(h.unwinding u hu).1, fun j slot hj hstore hheld => ?_⟩
    exact (h.unwinding u hu).2 j slot (held_of_modify SlotState.noConfusion hj hheld).2 hstore hheld

theorem Tidy.runDisposer (h : Tidy s) {i : Nat} {slot : EffectSlot} (hi : s.slots[i]? = some slot) :
    Tidy (s.runDisposer i slot) := by
  refine ⟨h.sound, h.owned, h.calls, fun slot' hslot => ?_, fun entry hentry n hn => ?_, fun u hu => ?_, h.cleaned⟩
  · rcases mem_modify hslot with hold | ⟨slot', hslot', rfl⟩
    · exact h.own slot' hold
    · exact h.own slot' (List.mem_of_getElem? hslot')
  · obtain ⟨hentry, hother⟩ := List.mem_filter.mp hentry
    obtain ⟨slot', hslot, hcontext, hservice, hdone, hstore⟩ := h.entered entry hentry n hn
    rcases mem_modify_of_mem (i := i) (f := fun slot => { slot with slot := .done }) hslot with ⟨hsame, -⟩ | hnew
    · rw [hi] at hsame
      cases hsame
      simp [hservice] at hother
    · exact ⟨slot', hnew, hcontext, hservice, hdone, hstore⟩
  · refine ⟨(h.unwinding u hu).1, fun j slot' hj hstore hheld => ?_⟩
    exact (h.unwinding u hu).2 j slot' (held_of_modify SlotState.noConfusion hj hheld).2 hstore hheld

theorem not_accepting_of_closed {n : Nat} (h : s.closed n = true) : ¬ s.accepting n = true := by
  simp only [closed, accepting, beq_iff_eq] at h ⊢
  simp [h]

theorem Tidy.effect (h : Tidy s) (context : Nat) : Tidy (s.effect context) := by
  have hpush {store : Option Nat} (hown : ∀ n, store = some n → n = context)
      (haccepting : ∀ n, store = some n → s.accepting n = true) :
      Tidy { s with slots := s.slots ++ [{ context, store, late := s.closed context }] } := by
    refine ⟨h.sound, h.owned, h.calls, fun slot hslot => ?_, fun entry hentry n hn => ?_, fun u hu => ?_, h.cleaned⟩
    · rcases List.mem_append.mp hslot with hold | hnew
      · exact h.own slot hold
      · rw [List.mem_singleton.mp hnew]
        exact fun _ => hown
    · obtain ⟨slot, hslot, hrest⟩ := h.entered entry hentry n hn
      exact ⟨slot, List.mem_append_left _ hslot, hrest⟩
    · refine ⟨(h.unwinding u hu).1, fun i slot hi hstore hheld => ?_⟩
      rcases Table.getElem?_concat_cases hi with hi | ⟨-, rfl⟩
      · exact (h.unwinding u hu).2 i slot hi hstore hheld
      · exact absurd (haccepting u.store hstore) (not_accepting_of_closed (h.unwinding u hu).1)
  rw [FiberContext.effect]
  split
  · exact hpush (by simp) (by simp)
  · exact h
  · split
    · next haccepting => exact hpush (by simp) (by simpa using haccepting)
    · exact h

theorem Tidy.setProvides (h : Tidy s) {provides : List ProvideCall} (nextRegistrationId : Nat)
    (hcalls : ∀ call ∈ provides, call.context < s.fiber.stores.length) :
    Tidy { s with provides, nextRegistrationId } :=
  ⟨h.sound, h.owned, hcalls, h.own, h.entered, h.unwinding, h.cleaned⟩

theorem Tidy.provide (h : Tidy s) {context : Nat} (hcontext : context < s.fiber.stores.length)
    (service : Service) : Tidy (s.provide context service) := by
  have hcall {point : ProvidePoint} :
    ∀ call ∈ s.provides ++ [ProvideCall.mk context service s.nextRegistrationId point],
      call.context < s.fiber.stores.length := by
    intro call hcall
    rcases List.mem_append.mp hcall with hold | hnew
    · exact h.calls call hold
    · rw [List.mem_singleton.mp hnew]
      exact hcontext
  rw [FiberContext.provide]
  split
  · exact h.setProvides _ hcall
  · exact h.setProvides _ hcall

theorem Tidy.provideTo (h : Tidy s) (c : Nat) (point : ProvidePoint) : Tidy (s.provideTo c point) := by
  refine h.setProvides s.nextRegistrationId fun call hcall => ?_
  rcases mem_modify hcall with hold | ⟨call', hcall', rfl⟩
  · exact h.calls call hold
  · exact h.calls call' (List.mem_of_getElem? hcall')

/-- A store that admits a service is the current generation's. -/
theorem Tidy.admits (h : Tidy s) {service : Service} {store : Option Nat}
    (hadmits : s.admits service store = true) :
    ∃ n g, store = some n ∧ s.fiber.stores[n]? = some true ∧ s.fiber.current = some g ∧ g.store = n := by
  cases store with
  | none => cases hadmits
  | some n =>
    simp only [FiberContext.admits, accepting, Bool.and_eq_true, beq_iff_eq] at hadmits
    obtain ⟨-, g, hcurrent, hstore⟩ := h.owned.opened n hadmits.1
    exact ⟨n, g, rfl, hadmits.1, hcurrent, hstore⟩

theorem Tidy.register (h : Tidy s) {call : ProvideCall} {store : Option Nat} (hcall : call ∈ s.provides)
    (hadmits : s.admits call.service store = true) : Tidy (s.register call store) := by
  obtain ⟨m, g, rfl, hopen, hcurrent, hstore⟩ := h.admits hadmits
  refine ⟨h.sound, h.owned, h.calls, fun slot hslot => ?_, fun entry hentry n hn => ?_, fun u hu => ?_, h.cleaned⟩
  · rcases List.mem_append.mp hslot with hold | hnew
    · exact h.own slot hold
    · rw [List.mem_singleton.mp hnew]
      intro hlate n hn
      cases hn
      -- the context's own store is still open, and only one is
      have hcontext : s.fiber.stores[call.context]? = some true := by
        have hget := List.getElem?_eq_getElem (h.calls call hcall)
        simp only [closed, hget] at hlate
        rw [hget]
        simpa using hlate
      obtain ⟨-, g', hg', hstore'⟩ := h.owned.opened _ hcontext
      rw [hcurrent] at hg'
      cases hg'
      exact hstore.symm.trans hstore'
  · rcases List.mem_append.mp hentry with hold | hnew
    · obtain ⟨slot, hslot, hrest⟩ := h.entered entry hold n hn
      exact ⟨slot, List.mem_append_left _ hslot, hrest⟩
    · rw [List.mem_singleton.mp hnew] at hn ⊢
      cases hn
      exact ⟨_, List.mem_append_right _ List.mem_cons_self, rfl, rfl, SlotState.noConfusion, by simp⟩
  · refine ⟨(h.unwinding u hu).1, fun i slot hi hslot hheld => ?_⟩
    rcases Table.getElem?_concat_cases hi with hi | ⟨-, rfl⟩
    · exact (h.unwinding u hu).2 i slot hi hslot hheld
    · cases hslot
      exact absurd (by simp [accepting, hopen]) (not_accepting_of_closed (h.unwinding u hu).1)

/-- The slots of a store are all in its list. -/
theorem mem_slotsOf {store i : Nat} {slot : EffectSlot} (hi : s.slots[i]? = some slot)
    (hstore : slot.store = some store) : i ∈ s.slotsOf store := by
  rw [slotsOf, List.mem_reverse, List.mem_filter, List.mem_range]
  exact ⟨(List.getElem?_eq_some_iff.mp hi).1, by simp [hi, hstore]⟩

/-- The store of the generation that a task cleans up is closed. -/
theorem Tidy.closed_of_cleaning (h : Tidy s) {t : Nat} (hcleaning : s.cleaning t = true) {g : Generation}
    (hcurrent : s.fiber.current = some g) : s.closed g.store = true := by
  have hshut (n : Nat) : s.fiber.stores[n]? ≠ some true := by
    rw [cleaning] at hcleaning
    split at hcleaning
    · next ht => exact h.owned.shut t _ ht trivial n
    · next ht =>
      have hunloading : s.fiber.state = .unloading := h.sound.fits t _ ht
      exact h.owned.shut_of_state (by simp [hunloading]) (by simp [hunloading]) n
    · cases hcleaning
  have hget := List.getElem?_eq_getElem (h.owned.bounded g hcurrent)
  have hfalse := hshut g.store
  simp only [closed, hget] at hfalse ⊢
  simpa using hfalse

theorem tidy_unwindStep (h : Tidy s) {u : Unwind} (hu : s.unwind = some u) (hstep : s.unwindStep u = some s') :
    Tidy s' := by
  obtain ⟨hclosed, hheld⟩ := h.unwinding u hu
  rw [unwindStep] at hstep
  split at hstep
  · next i hrunning =>
    split at hstep
    · next slot hi =>
      cases hstep
      have hrun := h.runDisposer hi
      refine hrun.setUnwind fun u' hu' => ?_
      cases hu'
      exact hrun.unwinding u hu
    · cases hstep
  · next i remaining hrunning hremaining =>
    rw [hremaining] at hheld
    split at hstep
    · next hi =>
      cases hstep
      have htake := h.takeDisposer i
      refine htake.setUnwind fun u' hu' => ?_
      cases hu'
      refine ⟨hclosed, fun j slot hj hstore hslot => ?_⟩
      obtain ⟨hne, hold⟩ := held_of_modify SlotState.noConfusion hj hslot
      exact (List.mem_cons.mp (hheld j slot hold hstore hslot)).resolve_left (Ne.symm hne)
    · next hi =>
      cases hstep
      refine h.setUnwind fun u' hu' => ?_
      cases hu'
      refine ⟨hclosed, fun j slot hj hstore hslot => ?_⟩
      refine (List.mem_cons.mp (hheld j slot hj hstore hslot)).resolve_left fun heq => ?_
      subst heq
      obtain ⟨context, store, service, state, late⟩ := slot
      cases hslot
      exact hi _ _ _ _ hj
  · cases hstep

theorem Tidy.finishUnwind {u : Unwind} {fiber : FiberHandle} (hfiber : Tidy { s with fiber })
    (hclosed : { s with fiber }.closed u.store = true) : Tidy (s.finishUnwind fiber u) := by
  refine ⟨hfiber.sound, hfiber.owned, hfiber.calls, hfiber.own, hfiber.entered, fun u' hu' => ?_, fun n hn => ?_⟩
  · cases hu'
  · rcases List.mem_cons.mp hn with rfl | hold
    · exact hclosed
    · exact hfiber.cleaned n hold

theorem tidy_cleaned (h : Tidy s) {t : Nat} {failed : Bool}
    (hstep : s.step (.fiber (.cleaned t failed)) = some s') :
    ∃ u fiber, s.unwind = some u ∧ u.remaining = [] ∧ u.running = none ∧ s' = s.finishUnwind fiber u ∧ Tidy s' := by
  rw [step] at hstep
  split at hstep
  · next u fiber hu hfiber =>
    split at hstep
    · next hdone =>
      cases hstep
      obtain ⟨howned, hshrinks⟩ := FiberHandle.owned_step h.sound h.owned hfiber
      have hclosed := closed_mono hshrinks (h.unwinding u hu).1
      exact ⟨u, fiber, hu, hdone.1, hdone.2, rfl, (tidy_fiber h hfiber).finishUnwind hclosed⟩
    · cases hstep
  · cases hstep

/-- A step of the fiber that does not end a cleanup. -/
theorem fiber_step {event : HandleEvent} (hevent : ∀ t failed, event ≠ .cleaned t failed)
    (hstep : s.step (.fiber event) = some s') : ∃ fiber, s.fiber.step event = some fiber ∧ s' = { s with fiber } := by
  cases event with
  | cleaned t failed => exact absurd rfl (hevent t failed)
  | _ =>
    rw [step] at hstep
    · obtain ⟨fiber, hfiber, hs⟩ := Option.map_eq_some_iff.mp hstep
      exact ⟨fiber, hfiber, hs.symm⟩
    · nofun

/-- What a `commit` does. -/
theorem commit_step {c : Nat} (hstep : s.step (.commit c) = some s') :
    ∃ call store, s.provides[c]? = some call ∧ call.point = .resolved store ∧
      (s.admits call.service store = true ∧ s' = (s.register call store).provideTo c (.returned true) ∨
        s.admits call.service store = false ∧ s' = s.provideTo c (.returned false)) := by
  rw [step] at hstep
  split at hstep
  · next call hc =>
    split at hstep
    · next store hpoint =>
      refine ⟨call, store, hc, hpoint, ?_⟩
      split at hstep
      · next hadmits =>
        cases hstep
        exact .inl ⟨hadmits, rfl⟩
      · next hadmits =>
        cases hstep
        exact .inr ⟨by simpa using hadmits, rfl⟩
    · cases hstep
  · cases hstep

theorem tidy_step (h : Tidy s) {event : ContextEvent} (hstep : s.step event = some s') : Tidy s' := by
  cases event with
  | fiber event =>
    by_cases hcleaned : ∃ t failed, event = .cleaned t failed
    · obtain ⟨t, failed, rfl⟩ := hcleaned
      obtain ⟨u, fiber, -, -, -, -, htidy⟩ := tidy_cleaned h hstep
      exact htidy
    · obtain ⟨fiber, hfiber, rfl⟩ := fiber_step (fun t failed heq => hcleaned ⟨t, failed, heq⟩) hstep
      exact tidy_fiber h hfiber
  | closeScope =>
    cases hstep
    exact ⟨h.sound, h.owned, h.calls, h.own, h.entered, h.unwinding, h.cleaned⟩
  | effect context =>
    rw [step] at hstep
    split at hstep
    · cases hstep
      exact h.effect context
    · cases hstep
  | provide context service =>
    rw [step] at hstep
    split at hstep
    · next hcontext =>
      cases hstep
      exact h.provide hcontext service
    · cases hstep
  | resolve c =>
    rw [step] at hstep
    split at hstep
    · cases hstep
      exact h.provideTo c _
    · cases hstep
  | commit c =>
    obtain ⟨call, store, hc, -, ⟨hadmits, rfl⟩ | ⟨-, rfl⟩⟩ := commit_step hstep
    · exact (h.register (List.mem_of_getElem? hc) hadmits).provideTo c _
    · exact h.provideTo c _
  | beginUnwind t =>
    rw [step] at hstep
    split at hstep
    · next g hunwind hcurrent =>
      split at hstep
      · next hcleaning =>
        cases hstep
        refine h.setUnwind fun u hu => ?_
        cases hu
        exact ⟨h.closed_of_cleaning hcleaning hcurrent, fun i slot hi hstore _ => mem_slotsOf hi hstore⟩
      · cases hstep
    · cases hstep
  | unwind =>
    rw [step] at hstep
    split at hstep
    · next u hu => exact tidy_unwindStep h hu hstep
    · cases hstep
  | take i =>
    rw [step] at hstep
    split at hstep
    · cases hstep
      exact h.takeDisposer i
    · cases hstep
  | dispose i =>
    rw [step] at hstep
    split at hstep
    · next slot hi =>
      split at hstep
      · cases hstep
        exact h.runDisposer hi
      · cases hstep
    · cases hstep
  | otherProvides service =>
    rw [step] at hstep
    split at hstep
    · cases hstep
      refine ⟨h.sound, h.owned, h.calls, h.own, fun entry hentry n hn => ?_, h.unwinding, h.cleaned⟩
      rcases List.mem_append.mp hentry with hold | hnew
      · exact h.entered entry hold n hn
      · rw [List.mem_singleton.mp hnew] at hn
        cases hn
    · cases hstep
  | otherRevokes id =>
    cases hstep
    exact ⟨h.sound, h.owned, h.calls, h.own, fun entry hentry => h.entered entry (List.mem_filter.mp hentry).1,
      h.unwinding, h.cleaned⟩

/-! ## What isolated runs keep -/

theorem Isolated.modifySlot (h : Isolated s) (i : Nat) (state : SlotState) :
    ∀ slot ∈ s.slots.modify i fun slot => { slot with slot := state }, slot.store ≠ none → slot.late = false := by
  intro slot hslot hstore
  rcases mem_modify hslot with hold | ⟨slot', hslot', rfl⟩
  · exact h.timely slot hold hstore
  · exact h.timely slot' (List.mem_of_getElem? hslot') hstore

theorem Isolated.takeDisposer (h : Isolated s) (i : Nat) : Isolated (s.takeDisposer i) :=
  ⟨h.modifySlot i .taken, h.revoked⟩

theorem Isolated.runDisposer (h : Isolated s) (i : Nat) (slot : EffectSlot) : Isolated (s.runDisposer i slot) :=
  ⟨h.modifySlot i .done, fun entry hentry => h.revoked entry (List.mem_filter.mp hentry).1⟩

theorem isolated_effect (h : Isolated s) (context : Nat) : Isolated (s.effect context) := by
  have hpush {store : Option Nat} (hlate : store ≠ none → s.closed context = false) :
      Isolated { s with slots := s.slots ++ [{ context, store, late := s.closed context }] } := by
    refine ⟨fun slot hslot hstore => ?_, h.revoked⟩
    rcases List.mem_append.mp hslot with hold | hnew
    · exact h.timely slot hold hstore
    · rw [List.mem_singleton.mp hnew] at hstore ⊢
      exact hlate hstore
  rw [effect]
  split
  · exact hpush (fun hne => absurd rfl hne)
  · exact h
  · split
    · next haccepting =>
      refine hpush fun _ => ?_
      simp only [accepting, beq_iff_eq] at haccepting
      simp [closed, haccepting]
    · exact h

theorem isolated_unwindStep (h : Isolated s) {u : Unwind} (hstep : s.unwindStep u = some s') : Isolated s' := by
  rw [unwindStep] at hstep
  split at hstep
  · next i _ =>
    split at hstep
    · next slot _ =>
      cases hstep
      exact ⟨(h.runDisposer i slot).timely, (h.runDisposer i slot).revoked⟩
    · cases hstep
  · next i remaining _ _ =>
    split at hstep
    · cases hstep
      exact ⟨(h.takeDisposer i).timely, (h.takeDisposer i).revoked⟩
    · cases hstep
      exact ⟨h.timely, h.revoked⟩
  · cases hstep

/-- When a cleanup ends, what is left of its generation was taken by handles. -/
theorem taken_of_cleaned (htidy : Tidy s) (h : Isolated s) {u : Unwind} (hu : s.unwind = some u)
    (hremaining : u.remaining = []) {entry : ServiceEntry} (hentry : entry ∈ s.registrations)
    (hcontext : entry.context = some u.store) :
    ∃ slot ∈ s.slots, slot.service = some (entry.name, entry.id) ∧ slot.slot = .taken := by
  obtain ⟨slot, hslot, hown, hservice, hdone, hstore⟩ := htidy.entered entry hentry u.store hcontext
  refine ⟨slot, hslot, hservice, ?_⟩
  obtain ⟨n, hn⟩ := Option.ne_none_iff_exists'.mp hstore
  have hsame : n = slot.context := htidy.own slot hslot (h.timely slot hslot hstore) n hn
  obtain ⟨i, hi⟩ := List.mem_iff_getElem?.mp hslot
  cases hstate : slot.slot with
  | taken => rfl
  | done => exact absurd hstate hdone
  | held =>
    have hleft := (htidy.unwinding u hu).2 i slot hi (by rw [hn, hsame, hown]) hstate
    rw [hremaining] at hleft
    cases hleft

theorem isolated_cleaned (htidy : Tidy s) (h : Isolated s) {t : Nat} {failed : Bool}
    (hstep : s.step (.fiber (.cleaned t failed)) = some s') :
    Isolated s' ↔ Confined s (.fiber (.cleaned t failed)) := by
  obtain ⟨u, fiber, hu, hremaining, -, rfl, -⟩ := tidy_cleaned htidy hstep
  constructor
  · intro hafter u' hu' entry hentry hcontext
    rw [hu] at hu'
    cases hu'
    exact absurd List.mem_cons_self (hafter.revoked entry hentry u.store hcontext)
  · intro hconfined
    refine ⟨h.timely, fun entry hentry n hn hcleaned => ?_⟩
    rcases List.mem_cons.mp hcleaned with rfl | hold
    · obtain ⟨slot, hslot, hservice, htaken⟩ := taken_of_cleaned htidy h hu hremaining hentry hn
      exact hconfined u hu entry hentry hn slot hslot hservice htaken
    · exact h.revoked entry hentry n hn hold

theorem isolated_commit (htidy : Tidy s) (h : Isolated s) {c : Nat} (hstep : s.step (.commit c) = some s') :
    Isolated s' ↔ Confined s (.commit c) := by
  obtain ⟨call, store, hc, hpoint, hcases⟩ := commit_step hstep
  have hcondition : Confined s (.commit c) ↔ (s.closed call.context = true → s.admits call.service store = false) := by
    constructor
    · exact fun hconfined => hconfined call store hc hpoint
    · intro hcall call' store' hc' hpoint'
      rw [hc] at hc'
      cases hc'
      rw [hpoint] at hpoint'
      cases hpoint'
      exact hcall
  rw [hcondition]
  rcases hcases with ⟨hadmits, rfl⟩ | ⟨hadmits, rfl⟩
  · obtain ⟨m, g, rfl, -⟩ := htidy.admits hadmits
    constructor
    · intro hafter hclosed
      have hlate := hafter.timely _ (List.mem_append_right _ List.mem_cons_self) (by simp)
      rw [hclosed] at hlate
      cases hlate
    · intro hcall
      have hopen : s.closed call.context = false := by
        by_contra hclosed
        rw [Bool.not_eq_false] at hclosed
        rw [hcall hclosed] at hadmits
        cases hadmits
      refine ⟨fun slot hslot hstore => ?_, fun entry hentry n hn hcleaned => ?_⟩
      · rcases List.mem_append.mp hslot with hold | hnew
        · exact h.timely slot hold hstore
        · rw [List.mem_singleton.mp hnew]
          exact hopen
      · rcases List.mem_append.mp hentry with hold | hnew
        · exact h.revoked entry hold n hn hcleaned
        · rw [List.mem_singleton.mp hnew] at hn
          cases hn
          rw [htidy.cleaned _ hcleaned] at hopen
          cases hopen
  · exact ⟨fun _ _ => hadmits, fun _ => ⟨h.timely, h.revoked⟩⟩

/-- A step keeps an isolated fiber isolated exactly when it is confined. -/
theorem isolated_step (htidy : Tidy s) (h : Isolated s) {event : ContextEvent} (hstep : s.step event = some s') :
    Isolated s' ↔ Confined s event := by
  cases event with
  | commit c => exact isolated_commit htidy h hstep
  | fiber event =>
    by_cases hcleaned : ∃ t failed, event = .cleaned t failed
    · obtain ⟨t, failed, rfl⟩ := hcleaned
      exact isolated_cleaned htidy h hstep
    · obtain ⟨fiber, -, rfl⟩ := fiber_step (fun t failed heq => hcleaned ⟨t, failed, heq⟩) hstep
      refine ⟨fun _ => ?_, fun _ => ⟨h.timely, h.revoked⟩⟩
      cases event with
      | cleaned t failed => exact absurd ⟨t, failed, rfl⟩ hcleaned
      | _ => trivial
  | closeScope =>
    cases hstep
    exact ⟨fun _ => trivial, fun _ => ⟨h.timely, h.revoked⟩⟩
  | effect context =>
    rw [step] at hstep
    split at hstep
    · cases hstep
      exact ⟨fun _ => trivial, fun _ => isolated_effect h context⟩
    · cases hstep
  | provide context service =>
    rw [step] at hstep
    split at hstep
    · cases hstep
      refine ⟨fun _ => trivial, fun _ => ?_⟩
      rw [provide]
      split <;> exact ⟨h.timely, h.revoked⟩
    · cases hstep
  | resolve c =>
    rw [step] at hstep
    split at hstep
    · cases hstep
      exact ⟨fun _ => trivial, fun _ => ⟨h.timely, h.revoked⟩⟩
    · cases hstep
  | beginUnwind t =>
    rw [step] at hstep
    split at hstep
    · split at hstep
      · cases hstep
        exact ⟨fun _ => trivial, fun _ => ⟨h.timely, h.revoked⟩⟩
      · cases hstep
    · cases hstep
  | unwind =>
    rw [step] at hstep
    split at hstep
    · exact ⟨fun _ => trivial, fun _ => isolated_unwindStep h hstep⟩
    · cases hstep
  | take i =>
    rw [step] at hstep
    split at hstep
    · cases hstep
      exact ⟨fun _ => trivial, fun _ => h.takeDisposer i⟩
    · cases hstep
  | dispose i =>
    rw [step] at hstep
    split at hstep
    · next slot hi =>
      split at hstep
      · cases hstep
        exact ⟨fun _ => trivial, fun _ => h.runDisposer i slot⟩
      · cases hstep
    · cases hstep
  | otherProvides service =>
    rw [step] at hstep
    split at hstep
    · cases hstep
      refine ⟨fun _ => trivial, fun _ => ⟨h.timely, fun entry hentry n hn => ?_⟩⟩
      rcases List.mem_append.mp hentry with hold | hnew
      · exact h.revoked entry hold n hn
      · rw [List.mem_singleton.mp hnew] at hn
        cases hn
    · cases hstep
  | otherRevokes id =>
    cases hstep
    exact ⟨fun _ => trivial, fun _ => ⟨h.timely, fun entry hentry => h.revoked entry (List.mem_filter.mp hentry).1⟩⟩

/-- A fiber is isolated in every state that a run reaches if and only if every
step of the run is confined. -/
theorem isolated_iff {scope : Option Bool} {events : List ContextEvent} {s : FiberContext}
    (hrun : Transition.run step (mounted scope) events = some s) :
    (∀ before x, before <+: events → Transition.run step (mounted scope) before = some x → x.Isolated) ↔
      Transition.Along step Confined (mounted scope) events :=
  Transition.reached_iff_along (fun _ _ _ h => tidy_step h) (fun _ _ _ htidy h => isolated_step htidy h) hrun
    (tidy_mounted scope) (isolated_mounted scope)

/-- A fiber is loaded, and its initializer provides a service. -/
def firstLoad : List ContextEvent :=
  [.fiber (.setVisible true), .fiber .reconcile, .fiber (.call 0), .fiber (.call 0), .fiber (.task 0), .fiber (.task 0),
    .fiber (.task 0), .fiber (.task 0), .fiber (.task 0), .fiber (.task 0), .provide 0 ⟨"clock", 1⟩, .resolve 0,
      .commit 0]

theorem isolated_while_loading :
    ∃ s, Transition.run step (mounted none) firstLoad = some s ∧
      s.registrations = [{ name := "clock", id := 0, context := some 0 }] ∧ s.Isolated := by
  have hrun : Transition.run step (mounted none) firstLoad = some _ := rfl
  refine ⟨_, hrun, rfl, ?_⟩
  refine (isolated_iff hrun).mpr ?_ _ _ (List.prefix_refl _) rfl
  -- only the `commit` asks for anything
  repeat' first | exact trivial | refine And.intro ?_ ?_
  intro call store hc hpoint hclosed
  cases hc
  cases hclosed

/-- The initializer returns; a dependency is lost, the fiber is unloaded, and
the dependency comes back. -/
def unloadedAgain : List ContextEvent :=
  [.fiber (.initialized 0 .succeeded), .fiber (.task 0), .fiber (.task 0), .fiber (.task 0), .fiber (.task 0),
    .fiber (.call 0), .fiber (.call 0), .fiber (.setVisible false), .fiber .reconcile, .fiber (.call 1),
    .fiber (.call 1), .fiber (.task 1), .fiber (.task 1), .fiber (.task 1), .fiber (.task 1), .fiber (.task 1),
    .beginUnwind 1, .unwind, .unwind, .fiber (.cleaned 1 false), .fiber (.task 1), .fiber (.task 1), .fiber (.task 1),
    .fiber (.setVisible true)]

/-- It is loaded again, and the first context is used once more. -/
def staleProvide : List ContextEvent :=
  [.fiber .reconcile, .fiber (.call 2), .fiber (.call 2), .fiber (.task 2), .fiber (.task 2), .fiber (.task 2),
    .fiber (.task 2), .fiber (.task 2), .fiber (.task 2), .provide 0 ⟨"clock", 1⟩, .resolve 1, .commit 1]

/-- The context of a closed generation registers in the store of a later one. -/
theorem stale_provide_registers :
    ∃ s, Transition.run step (mounted none) (firstLoad ++ unloadedAgain ++ staleProvide) = some s ∧
      s.fiber.stores = [false, true] ∧ s.cleaned = [0] ∧
      s.slots.getLast? = some { context := 0, store := some 1, service := some ("clock", 1), late := true } ∧
      s.registrations = [{ name := "clock", id := 1, context := some 0 }] ∧ ¬ s.Isolated :=
  ⟨_, rfl, rfl, rfl, rfl, rfl, fun h => h.revoked _ List.mem_cons_self 0 rfl List.mem_cons_self⟩

end FiberContext

end MinionAgent.Rust
