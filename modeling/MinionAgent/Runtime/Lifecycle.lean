import Mathlib.Data.List.Chain
import MinionAgent.Runtime.FiberHandle

/-!
# MinionAgent.Runtime.Lifecycle

The life of a Rust fiber under any interleaving of calls, transitions and
changes of the dependencies.

* `FiberHandle.Core` — what holds of the lifecycle whenever its lock is free;
* `FiberHandle.Fits` — what the place of the task in flight says about it;
* `lifecycle_safe` — the states follow the graph, one initializer runs at a
  time, nothing is committed after a loss, and disposal disposes.
-/

namespace MinionAgent.Rust

/-- The graph of the lifecycle. -/
inductive Edge : FiberState → FiberState → Prop
  | load : Edge .pending .loading
  | commit : Edge .loading .active
  | fail : Edge .loading .failed
  | abandon : Edge .loading .pending
  | loadingDisposed : Edge .loading .disposed
  | unload : Edge .active .unloading
  | unloaded : Edge .unloading .pending
  | unloadingDisposed : Edge .unloading .disposed
  | pendingDisposed : Edge .pending .disposed
  | failedDisposed : Edge .failed .disposed

/-- The panics that can happen: the initializer's own, and the assertion of
`load` that meets a disposal requested a moment before. -/
def Panic.Allowed (p : Panic) : Prop := p = .initializer ∨ p = .assertNotDisposed

/-- A task at such a place is not over. -/
def TaskPoint.isOpen : TaskPoint → Bool
  | .finished => false
  | _ => true

/-- At such a place nothing is published and no request is looked at. -/
def TaskPoint.isPlain : TaskPoint → Bool
  | .publishing _ | .dispatch => false
  | _ => true

theorem TaskPoint.ne_finished {p : TaskPoint} (h : p.isOpen = true) : p ≠ .finished := by
  rintro rfl
  cases h

namespace FiberHandle

/-- No transition is under way. -/
def Resting (s : FiberHandle) : Prop := s.state ≠ .loading ∧ s.state ≠ .unloading

/-- What holds of the lifecycle whenever its lock is free: a generation is
owned in the states that need one, a signal during a load voids its
generation, and the trace is a path of the graph that ends in the state. -/
structure Core (s : FiberHandle) : Prop where
  owned : s.state = .active ∨ s.state = .loading ∨ s.state = .unloading →
    ∃ g, s.current = some g ∧ g.id ≤ s.generation
  voided : s.state = .loading → s.lost = true →
    s.disposeRequested = true ∨ ∀ g, s.current = some g → s.generation ≠ g.id
  path : s.trace.IsChain Edge
  last : s.trace.getLast? = some s.state

/-- What the place of a task says about the lifecycle. -/
def Fits (s : FiberHandle) : TaskPoint → Prop
  | .acquire | .enter | .dispatch | .disposing | .publishing _ | .clearing => s.Resting
  | .guardPending | .samplePending | .loading => s.state = .pending
  | .guardActive | .sampleActive | .unloading _ => s.state = .active
  | .retire => s.state = .pending ∨ s.state = .failed
  | .initializing generation | .committing generation | .commit generation _ | .judging generation =>
    s.state = .loading ∧ s.current.map Generation.id = some generation
  | .closing finish | .cleaning finish | .settling finish _ =>
    s.state = .loading ∧ s.current.map Generation.id = some finish.generation ∧
      (finish.target = .failed ∧ finish.initialization = true ∨ finish.target = .pending ∨ finish.target = .disposed)
  | .unwinding | .settlingUnload _ => s.state = .unloading
  | .finished => True

/-- What every run keeps. -/
structure Sound (s : FiberHandle) : Prop where
  core : Core s
  single : ∀ (t : Nat) (task : Task), s.tasks[t]? = some task → task.point ≠ .finished → s.inFlight = some t
  fits : ∀ (t : Nat) (task : Task), s.tasks[t]? = some task → s.Fits task.point
  rest : s.inFlight = none → s.Resting
  asked : ∀ (t : Nat) (task : Task), s.tasks[t]? = some task → task.request = .dispose →
    s.disposeRequested = true ∧ task.point ≠ .dispatch
  calls : ∀ (c : Nat) (call : DriveCall), s.calls[c]? = some call → call.kind = .dispose → s.disposeRequested = true
  disposes : ∀ (c : Nat) (call : DriveCall) (error : Option FiberError), s.calls[c]? = some call →
    call.kind = .dispose → call.point = .returned error → s.state = .disposed
  outcomes : ∀ (t : Nat) (task : Task) (p : Panic), s.tasks[t]? = some task →
    (task.outcome = some (.panicked p) ∨ task.point = .publishing (.panicked p)) → p.Allowed
  panics : ∀ (c : Nat) (call : DriveCall) (p : Panic), s.calls[c]? = some call → call.point = .panicked p → p.Allowed

theorem sound_initial : Sound {} where
  core := by constructor <;> simp
  single := by simp
  fits := by simp
  rest := by simp [Resting]
  asked := by simp
  calls := by simp
  disposes := by simp
  outcomes := by simp
  panics := by simp

/-! ## The lifecycle -/

variable {s s' x : FiberHandle} {t : Nat} {task : Task} {p point : TaskPoint}

theorem current_transitionTo (s : FiberHandle) (state : FiberState) :
    (s.transitionTo state).current = s.current := by
  rw [FiberHandle.transitionTo]
  split <;> rfl

theorem state_transitionTo (s : FiberHandle) (state : FiberState) : (s.transitionTo state).state = state := by
  rw [FiberHandle.transitionTo]
  split
  · next heq => exact heq
  · rfl

/-- Closing a generation voids it. -/
theorem core_closeGeneration {g : Generation} (hid : g.id ≤ s.generation) (hpath : s.trace.IsChain Edge)
    (hlast : s.trace.getLast? = some s.state) : Core (s.closeGeneration g) := by
  have hne : (s.closeGeneration g).generation ≠ g.id := by
    simp only [FiberHandle.closeGeneration]
    split <;> omega
  have hle : s.generation ≤ (s.closeGeneration g).generation := by
    simp only [FiberHandle.closeGeneration]
    split <;> omega
  refine ⟨fun _ => ⟨{ g with cancelled := true }, rfl, hid.trans hle⟩, fun _ _ => .inr fun g' hg' => ?_, hpath, hlast⟩
  cases hg'
  exact hne

/-- A signal closes the generation of an active or loading fiber. -/
theorem Core.closeCurrentGeneration (h : Core s) (hstate : s.state = .active ∨ s.state = .loading)
    (hx : x.state = s.state ∧ x.current = s.current ∧ x.generation = s.generation ∧ x.trace = s.trace) :
    ∃ g, s.current = some g ∧ x.closeCurrentGeneration = (x.closeGeneration g, false) ∧ Core (x.closeGeneration g) := by
  obtain ⟨hxstate, hxcurrent, hxgeneration, hxtrace⟩ := hx
  obtain ⟨g, hcurrent, hid⟩ := h.owned (hstate.imp id .inl)
  refine ⟨g, hcurrent, ?_, core_closeGeneration (hxgeneration ▸ hid) ?_ ?_⟩
  · rw [FiberHandle.closeCurrentGeneration, hxcurrent, hcurrent]
  · rw [hxtrace]
    exact h.path
  · rw [hxtrace, hxstate]
    exact h.last

/-! ## Steps of tasks -/

/-- A change of the lifecycle alone. -/
structure Lifts (s x : FiberHandle) : Prop where
  core : Core x
  tasks : x.tasks = s.tasks
  inFlight : x.inFlight = s.inFlight
  calls : x.calls = s.calls
  asked : s.disposeRequested = true → x.disposeRequested = true
  terminal : s.state = .disposed → x.state = .disposed

theorem Sound.lifts (h : Sound s) : Lifts s s := ⟨h.core, rfl, rfl, rfl, id, id⟩

/-- A change of the generation alone. -/
structure Regenerates (s x : FiberHandle) : Prop where
  state : x.state = s.state
  trace : x.trace = s.trace
  tasks : x.tasks = s.tasks
  inFlight : x.inFlight = s.inFlight
  calls : x.calls = s.calls
  asked : s.disposeRequested = true → x.disposeRequested = true

/-- The state moves along the graph. -/
theorem Sound.transitionTo (h : Sound s) (hx : Regenerates s x) {state : FiberState}
    (hedge : Edge s.state state)
    (howned : state = .active ∨ state = .loading ∨ state = .unloading → ∃ g, x.current = some g ∧ g.id ≤ x.generation)
    (hvoided : state = .loading → x.lost = false) : Lifts s (x.transitionTo state) := by
  have hne : x.state ≠ state := by
    intro heq
    rw [hx.state] at heq
    rw [heq] at hedge
    cases hedge
  rw [FiberHandle.transitionTo, if_neg hne]
  refine ⟨⟨howned, fun hloading hlost => ?_, ?_, by simp⟩, hx.tasks, hx.inFlight, hx.calls, hx.asked,
    fun hdisposed => ?_⟩
  · rw [hvoided hloading] at hlost
    cases hlost
  · rw [List.isChain_append, hx.trace]
    refine ⟨h.core.path, List.isChain_singleton _, fun y hy z hz => ?_⟩
    rw [h.core.last] at hy
    cases hy
    cases hz
    exact hedge
  · rw [hdisposed] at hedge
    cases hedge

/-- The unfinished task goes on, with a change of the lifecycle that fits. -/
theorem Sound.modifyTask (h : Sound s) (ht : s.tasks[t]? = some task) (hpoint : task.point ≠ .finished)
    (hlifts : Lifts s x) (f : Task → Task) (hrequest : (f task).request = task.request)
    (hfits : x.Fits (f task).point) (hdispatch : (f task).point = .dispatch → task.request ≠ .dispose)
    (hallowed : ∀ p, ((f task).outcome = some (.panicked p) ∨ (f task).point = .publishing (.panicked p)) → p.Allowed) :
    Sound { x with tasks := x.tasks.modify t f } := by
  have hflight := h.single t task ht hpoint
  have hget {t' : Nat} {task' : Task} (ht' : (x.tasks.modify t f)[t']? = some task') :
      t' = t ∧ task' = f task ∨ t' ≠ t ∧ s.tasks[t']? = some task' := by
    rw [hlifts.tasks, List.getElem?_modify] at ht'
    by_cases heq : t = t'
    · subst heq
      rw [ht] at ht'
      exact .inl ⟨rfl, by simpa using ht'.symm⟩
    · exact .inr ⟨Ne.symm heq, by simpa [heq] using ht'⟩
  constructor
  · exact ⟨hlifts.core.owned, hlifts.core.voided, hlifts.core.path, hlifts.core.last⟩
  · intro t' task' ht' hne
    rcases hget ht' with ⟨rfl, -⟩ | ⟨-, hold⟩
    · exact hlifts.inFlight.trans hflight
    · exact hlifts.inFlight.trans (h.single t' task' hold hne)
  · intro t' task' ht'
    rcases hget ht' with ⟨-, rfl⟩ | ⟨hne, hold⟩
    · exact hfits
    · have hfinished : task'.point = .finished := by
        by_contra hunfinished
        have hsame := h.single t' task' hold hunfinished
        rw [hflight] at hsame
        exact hne (Option.some.inj hsame).symm
      rw [hfinished]
      exact trivial
  · intro hnone
    have hsome := hlifts.inFlight.trans hflight
    rw [show x.inFlight = none from hnone] at hsome
    cases hsome
  · intro t' task' ht' hdispose
    rcases hget ht' with ⟨-, rfl⟩ | ⟨-, hold⟩
    · have hrequest := hrequest.symm.trans hdispose
      exact ⟨hlifts.asked (h.asked t task ht hrequest).1, fun hpoint => hdispatch hpoint hrequest⟩
    · exact ⟨hlifts.asked (h.asked t' task' hold hdispose).1, (h.asked t' task' hold hdispose).2⟩
  · intro c call hc hkind
    exact hlifts.asked (h.calls c call (hlifts.calls ▸ hc) hkind)
  · intro c call error hc hkind hreturned
    exact hlifts.terminal (h.disposes c call error (hlifts.calls ▸ hc) hkind hreturned)
  · intro t' task' p ht' hp
    rcases hget ht' with ⟨-, rfl⟩ | ⟨-, hold⟩
    · exact hallowed p hp
    · exact h.outcomes t' task' p hold hp
  · intro c call p hc hp
    exact h.panics c call p (hlifts.calls ▸ hc) hp

/-- What the place of a task says. -/
theorem Sound.fitsAt (h : Sound s) (ht : s.tasks[t]? = some task) (hp : task.point = p) : s.Fits p :=
  hp ▸ h.fits t task ht

/-- The task goes on to a place that fits what the lifecycle has become. -/
theorem Sound.goTo (h : Sound s) (ht : s.tasks[t]? = some task) (hp : task.point = p) (hlifts : Lifts s x)
    (hfits : x.Fits point) (hplaces : (p.isOpen && point.isPlain) = true) : Sound (x.goTo t point) := by
  obtain ⟨hopen, hplain⟩ := Bool.and_eq_true_iff.mp hplaces
  refine h.modifyTask ht (hp ▸ TaskPoint.ne_finished hopen) hlifts _ rfl hfits (fun hdispatch => ?_) fun p hp => ?_
  · obtain rfl : point = .dispatch := hdispatch
    cases hplain
  · rcases hp with hp | hpublishing
    · exact h.outcomes t task p ht (.inl hp)
    · obtain rfl : point = .publishing (.panicked p) := hpublishing
      cases hplain

theorem Sound.setLocked (h : Sound s) (locked : Option Nat) : Sound { s with locked } :=
  ⟨⟨h.core.owned, h.core.voided, h.core.path, h.core.last⟩, h.single, h.fits, h.rest, h.asked, h.calls, h.disposes,
    h.outcomes, h.panics⟩

/-- The task is over with an outcome that it may have. -/
theorem Sound.completeWith (h : Sound s) (ht : s.tasks[t]? = some task) (hp : task.point = p) (hlifts : Lifts s x)
    (hresting : x.Resting) {outcome : TransitionOutcome} (hopen : p.isOpen = true)
    (hallowed : ∀ q, outcome = .panicked q → q.Allowed) : Sound (x.complete t outcome) := by
  have hfits : x.Fits (.publishing outcome) := hresting
  have hmodified := h.modifyTask ht (hp ▸ TaskPoint.ne_finished hopen) hlifts
    (fun task => { task with point := .publishing outcome }) rfl hfits (by nofun) fun p hp =>
      hp.elim (fun houtcome => h.outcomes t task p ht (.inl houtcome)) fun hpublishing => hallowed p (by
        cases hpublishing
        rfl)
  exact hmodified.setLocked none

theorem Sound.complete (h : Sound s) (ht : s.tasks[t]? = some task) (hp : task.point = p) (hlifts : Lifts s x)
    (hresting : x.Resting) {error : Option FiberError} (hopen : p.isOpen = true) :
    Sound (x.complete t (.completed error)) :=
  h.completeWith ht hp hlifts hresting hopen (by nofun)

theorem Sound.load (h : Sound s) (ht : s.tasks[t]? = some task) (hpoint : task.point = .loading) :
    Sound (s.load t) := by
  have hpending : s.state = .pending := h.fitsAt ht hpoint
  have hresting : s.Resting := by simp [Resting, hpending]
  rw [FiberHandle.load, if_neg (by simp [hpending])]
  split
  · refine h.completeWith ht hpoint h.lifts hresting rfl fun p hp => .inr ?_
    cases hp
    rfl
  · have hedge : Edge s.state .loading := by
      rw [hpending]
      exact .load
    have hx : Regenerates s s.newGeneration := ⟨rfl, rfl, rfl, rfl, rfl, id⟩
    have hlifts : Lifts s (s.newGeneration.transitionTo .loading) :=
      h.transitionTo hx hedge (fun _ => ⟨_, rfl, Nat.le_refl _⟩) fun _ => rfl
    refine h.goTo ht hpoint hlifts ⟨state_transitionTo _ _, ?_⟩ rfl
    rw [current_transitionTo]
    rfl

/-- The next steps are those of a generation that is loading. -/
theorem Sound.tryCommitActive (h : Sound s) {generation : Nat} {visible : Bool} (ht : s.tasks[t]? = some task)
    (hpoint : task.point = .commit generation visible) : Sound (s.tryCommitActive t generation visible) := by
  obtain ⟨hloading, hid⟩ : s.state = .loading ∧ s.current.map Generation.id = some generation := h.fitsAt ht hpoint
  have hclosing {x : FiberHandle} (hlifts : Lifts s x) (hstate : x.state = .loading)
      (hcurrent : x.current.map Generation.id = some generation) :
      Sound (x.goTo t (.closing { generation, target := .pending })) :=
    h.goTo ht hpoint hlifts ⟨hstate, hcurrent, .inr (.inl rfl)⟩ rfl
  rw [FiberHandle.tryCommitActive]
  split
  · split
    · have hedge : Edge s.state .active := by
        rw [hloading]
        exact .commit
      have hlifts : Lifts s (s.transitionTo .active) :=
        h.transitionTo ⟨rfl, rfl, rfl, rfl, rfl, id⟩ hedge (fun _ => h.core.owned (.inr (.inl hloading)))
          FiberState.noConfusion
      exact h.complete ht hpoint hlifts (by simp [Resting, state_transitionTo]) rfl
    · exact hclosing h.lifts hloading hid
  · obtain ⟨g, hcurrent, hclose, hcore⟩ := h.core.closeCurrentGeneration (x := { s with lost := true }) (.inr hloading)
      ⟨rfl, rfl, rfl, rfl⟩
    rw [hclose]
    refine hclosing ⟨hcore, rfl, rfl, rfl, id, id⟩ hloading ?_
    rw [hcurrent] at hid
    exact hid

theorem Sound.closeLoading (h : Sound s) {finish : Finish} (ht : s.tasks[t]? = some task)
    (hpoint : task.point = .closing finish) : Sound (s.closeLoading t finish) := by
  have hfits := h.fitsAt ht hpoint
  obtain ⟨hloading, hid, htarget⟩ := hfits
  obtain ⟨g, hcurrent, hclose, hcore⟩ := h.core.closeCurrentGeneration (x := s) (.inr hloading) ⟨rfl, rfl, rfl, rfl⟩
  have hg : g.id = finish.generation := by simpa [hcurrent] using hid
  rw [FiberHandle.closeLoading, hcurrent]
  simp only [hg, if_true]
  refine h.goTo ht hpoint ⟨hcore, rfl, rfl, rfl, id, id⟩ ⟨hloading, congrArg some hg, htarget⟩ rfl

theorem Sound.settleLoading (h : Sound s) {finish : Finish} {cleanupFailed : Bool}
    (ht : s.tasks[t]? = some task) (hpoint : task.point = .settling finish cleanupFailed) :
    Sound (s.settleLoading t finish cleanupFailed) := by
  have hfits := h.fitsAt ht hpoint
  obtain ⟨hloading, hid, htarget⟩ := hfits
  have hcases : s.targetOf finish.target = .disposed ∨ s.targetOf finish.target = .pending ∨
      s.targetOf finish.target = .failed ∧ finish.initialization = true := by
    rw [targetOf]
    split
    · exact .inl rfl
    · rcases htarget with ⟨hfailed, hinit⟩ | hpending | hdisposed
      · exact .inr (.inr ⟨hfailed, hinit⟩)
      · exact .inr (.inl hpending)
      · exact .inl hdisposed
  have hedge : Edge s.state (s.targetOf finish.target) := by
    rw [hloading]
    rcases hcases with heq | heq | ⟨heq, -⟩ <;> rw [heq]
    · exact .loadingDisposed
    · exact .abandon
    · exact .fail
  have hresting : s.targetOf finish.target ≠ .loading ∧ s.targetOf finish.target ≠ .unloading := by
    rcases hcases with heq | heq | ⟨heq, -⟩ <;> simp [heq]
  have hx : Regenerates s (s.dropGeneration finish.generation) := ⟨rfl, rfl, rfl, rfl, rfl, id⟩
  have hlifts : Lifts s ((s.dropGeneration finish.generation).transitionTo (s.targetOf finish.target)) := by
    refine h.transitionTo hx hedge (fun howned => ?_) fun heq => absurd heq hresting.1
    rcases hcases with heq | heq | ⟨heq, -⟩ <;> simp [heq] at howned
  refine h.completeWith ht hpoint hlifts (by rw [Resting, state_transitionTo]; exact hresting) rfl fun p hp => ?_
  rw [finishOutcome] at hp
  split at hp
  · cases hp
    exact .inl rfl
  · split at hp
    · next hfailed =>
      rw [hfailed] at hcases
      simp only [reduceCtorEq, false_or, true_and] at hcases
      rw [if_pos hcases] at hp
      cases hp
    · cases hp

/-- A change of the flags. -/
structure Flags (s x : FiberHandle) : Prop where
  state : x.state = s.state
  current : x.current = s.current
  generation : x.generation = s.generation
  trace : x.trace = s.trace
  tasks : x.tasks = s.tasks
  inFlight : x.inFlight = s.inFlight
  calls : x.calls = s.calls
  asked : s.disposeRequested = true → x.disposeRequested = true

theorem Sound.unload (h : Sound s) {disposing : Bool} (ht : s.tasks[t]? = some task)
    (hpoint : task.point = .unloading disposing) : Sound (s.unload t disposing) := by
  have hactive : s.state = .active := h.fitsAt ht hpoint
  obtain ⟨g, hcurrent, hid⟩ := h.core.owned (.inl hactive)
  have hedge : Edge s.state .unloading := by
    rw [hactive]
    exact .unload
  rw [FiberHandle.unload, if_neg (by simp [hactive]), hcurrent]
  have hx : Regenerates s (s.leaveGeneration g disposing) :=
    ⟨rfl, rfl, rfl, rfl, rfl, fun hasked => by simp [leaveGeneration, hasked]⟩
  have hlifts : Lifts s ((s.leaveGeneration g disposing).transitionTo .unloading) :=
    h.transitionTo hx hedge (fun _ => ⟨{ g with cancelled := true }, rfl, Nat.le_succ_of_le hid⟩) FiberState.noConfusion
  have hfits : ((s.leaveGeneration g disposing).transitionTo .unloading).Fits .unwinding := state_transitionTo _ _
  exact h.goTo ht hpoint hlifts hfits rfl

theorem targetOf_pending (s : FiberHandle) : s.targetOf .pending = .disposed ∨ s.targetOf .pending = .pending := by
  rw [targetOf]
  split
  · exact .inl rfl
  · exact .inr rfl

theorem Sound.settleUnload (h : Sound s) {cleanupFailed : Bool} (ht : s.tasks[t]? = some task)
    (hpoint : task.point = .settlingUnload cleanupFailed) : Sound (s.settleUnload t cleanupFailed) := by
  have hunloading : s.state = .unloading := h.fitsAt ht hpoint
  have hedge : Edge s.state (s.targetOf .pending) := by
    rw [hunloading]
    rcases s.targetOf_pending with heq | heq <;> rw [heq]
    · exact .unloadingDisposed
    · exact .unloaded
  have hx : Regenerates s { s with current := none } := ⟨rfl, rfl, rfl, rfl, rfl, id⟩
  have hlifts : Lifts s ({ s with current := none }.transitionTo (s.targetOf .pending)) := by
    refine h.transitionTo hx hedge (fun howned => ?_) fun heq => ?_
    · rcases s.targetOf_pending with htarget | htarget <;> simp [htarget] at howned
    · rcases s.targetOf_pending with htarget | htarget <;> simp [htarget] at heq
  refine h.complete ht hpoint hlifts ?_ rfl
  rw [Resting, state_transitionTo]
  rcases s.targetOf_pending with htarget | htarget <;> simp [htarget]

theorem Sound.retire (h : Sound s) (ht : s.tasks[t]? = some task) (hpoint : task.point = .retire) :
    Sound (({ s with current := none }.transitionTo .disposed).complete t (.completed none)) := by
  have hstate : s.state = .pending ∨ s.state = .failed := h.fitsAt ht hpoint
  have hedge : Edge s.state .disposed := by
    rcases hstate with heq | heq <;> rw [heq]
    · exact .pendingDisposed
    · exact .failedDisposed
  have hx : Regenerates s { s with current := none } := ⟨rfl, rfl, rfl, rfl, rfl, id⟩
  have hlifts : Lifts s ({ s with current := none }.transitionTo .disposed) :=
    h.transitionTo hx hedge (by simp) FiberState.noConfusion
  exact h.complete ht hpoint hlifts (by simp [Resting, state_transitionTo]) rfl

/-- The transition is over: its slot is cleared. -/
theorem Sound.clear (h : Sound s) (ht : s.tasks[t]? = some task) (hpoint : task.point = .clearing) :
    Sound { s.goTo t .finished with inFlight := if s.inFlight = some t then none else s.inFlight } := by
  have hresting : s.Resting := h.fitsAt ht hpoint
  have hflight := h.single t task ht (by simp [hpoint])
  have hdone : s.Fits .finished := trivial
  have hgoTo := h.goTo ht hpoint h.lifts hdone rfl
  rw [if_pos hflight]
  refine ⟨⟨hgoTo.core.owned, hgoTo.core.voided, hgoTo.core.path, hgoTo.core.last⟩, ?_, hgoTo.fits, fun _ => hresting,
    hgoTo.asked, hgoTo.calls, hgoTo.disposes, hgoTo.outcomes, hgoTo.panics⟩
  intro t' task' ht' hunfinished
  have hsame := hgoTo.single t' task' ht' hunfinished
  rw [show (s.goTo t .finished).inFlight = s.inFlight from rfl, hflight] at hsame
  cases hsame
  simp only [FiberHandle.goTo, List.getElem?_modify_eq, ht, Option.map_eq_map, Option.map_some,
    Option.some.injEq] at ht'
  rw [← ht'] at hunfinished
  exact absurd rfl hunfinished

/-- The outcome of a task is published. -/
theorem Sound.publish (h : Sound s) {outcome : TransitionOutcome} (ht : s.tasks[t]? = some task)
    (hpoint : task.point = .publishing outcome) :
    Sound { s with
      tasks := s.tasks.modify t fun task => { task with point := .clearing, outcome := some outcome } } := by
  have hfits := h.fitsAt ht hpoint
  refine h.modifyTask ht (by simp [hpoint]) h.lifts _ rfl hfits (by nofun) fun p hp => ?_
  rcases hp with hp | hp
  · refine h.outcomes t task p ht (.inr ?_)
    rw [hpoint, Option.some.inj hp]
  · cases hp

/-- A task that has the lock looks whether a disposal is asked for. -/
theorem Sound.enter (h : Sound s) (ht : s.tasks[t]? = some task) (hpoint : task.point = .enter) :
    Sound (s.goTo t (if s.disposeRequested then .disposing else .dispatch)) := by
  have hfits := h.fitsAt ht hpoint
  split
  · exact h.goTo ht hpoint h.lifts hfits rfl
  · next hrequested =>
    refine h.modifyTask ht (by simp [hpoint]) h.lifts _ rfl hfits (fun _ hdispose => ?_) fun p hp => ?_
    · exact hrequested (h.asked t task ht hdispose).1
    · exact h.outcomes t task p ht (.inl (hp.resolve_right (by nofun)))

/-- A task that is not a disposal goes by the state. -/
theorem sound_dispatch (h : Sound s) (ht : s.tasks[t]? = some task) (hpoint : task.point = .dispatch)
    (hstep : s.taskStep t task = some s') : Sound s' := by
  have hfits := h.fitsAt ht hpoint
  simp only [taskStep, hpoint] at hstep
  obtain ⟨hloading, hunloading⟩ := hfits
  split at hstep
  · next hdispose => exact absurd hpoint (h.asked t task ht hdispose).2
  · cases hstate : s.state <;> rw [hstate] at hstep <;> simp only [Option.some.injEq] at hstep
    · exact hstep ▸ h.goTo ht hpoint h.lifts hstate rfl
    · exact absurd hstate hloading
    · exact hstep ▸ h.goTo ht hpoint h.lifts hstate rfl
    · exact hstep ▸ h.complete ht hpoint h.lifts ⟨hloading, hunloading⟩ rfl
    · exact absurd hstate hunloading
    · exact hstep ▸ h.complete ht hpoint h.lifts ⟨hloading, hunloading⟩ rfl

/-- A pending fiber is left alone where it is to be disposed. -/
theorem Sound.guardPending (h : Sound s) (ht : s.tasks[t]? = some task) (hpoint : task.point = .guardPending) :
    Sound (if s.disposeRequested then s.complete t (.completed none) else s.goTo t .samplePending) := by
  have hpending : s.state = .pending := h.fitsAt ht hpoint
  split
  · exact h.complete ht hpoint h.lifts (by simp [Resting, hpending]) rfl
  · exact h.goTo ht hpoint h.lifts hpending rfl

/-- A pending fiber loads where its dependencies are there. -/
theorem Sound.samplePending (h : Sound s) (ht : s.tasks[t]? = some task) (hpoint : task.point = .samplePending) :
    Sound (if s.visible then s.goTo t .loading else s.complete t (.completed none)) := by
  have hpending : s.state = .pending := h.fitsAt ht hpoint
  split
  · exact h.goTo ht hpoint h.lifts hpending rfl
  · exact h.complete ht hpoint h.lifts (by simp [Resting, hpending]) rfl

theorem Sound.guardActive (h : Sound s) (ht : s.tasks[t]? = some task) (hpoint : task.point = .guardActive) :
    Sound (s.goTo t (if s.dependencyInvalidated then .unloading false else .sampleActive)) := by
  have hfits := h.fitsAt ht hpoint
  split
  · exact h.goTo ht hpoint h.lifts hfits rfl
  · exact h.goTo ht hpoint h.lifts hfits rfl

/-- An active fiber unloads where a dependency is gone. -/
theorem Sound.sampleActive (h : Sound s) (ht : s.tasks[t]? = some task) (hpoint : task.point = .sampleActive) :
    Sound (if s.visible then s.complete t (.completed none) else s.goTo t (.unloading false)) := by
  have hactive : s.state = .active := h.fitsAt ht hpoint
  split
  · exact h.complete ht hpoint h.lifts (by simp [Resting, hactive]) rfl
  · exact h.goTo ht hpoint h.lifts hactive rfl

/-- A disposal goes by the state. -/
theorem sound_disposing (h : Sound s) (ht : s.tasks[t]? = some task) (hpoint : task.point = .disposing)
    (hstep : s.taskStep t task = some s') : Sound s' := by
  have hfits := h.fitsAt ht hpoint
  simp only [taskStep, hpoint] at hstep
  obtain ⟨hloading, hunloading⟩ := hfits
  cases hstate : s.state <;> rw [hstate] at hstep <;> simp only [Option.some.injEq] at hstep
  · exact hstep ▸ h.goTo ht hpoint h.lifts (.inl hstate) rfl
  · exact absurd hstate hloading
  · exact hstep ▸ h.goTo ht hpoint h.lifts hstate rfl
  · exact hstep ▸ h.goTo ht hpoint h.lifts (.inr hstate) rfl
  · exact absurd hstate hunloading
  · exact hstep ▸ h.complete ht hpoint h.lifts ⟨hloading, hunloading⟩ rfl

/-- The initializer has returned: it is judged whether its generation goes on. -/
theorem Sound.judge (h : Sound s) {generation : Nat} (ht : s.tasks[t]? = some task)
    (hpoint : task.point = .judging generation) :
    Sound (s.goTo t (.closing
      { generation
        target := if s.loadingGenerationIsLive generation then .failed else .pending
        initialization := s.loadingGenerationIsLive generation })) := by
  have hfits := h.fitsAt ht hpoint
  refine h.goTo ht hpoint h.lifts ⟨hfits.1, hfits.2, ?_⟩ rfl
  split
  · next hlive => exact .inl ⟨rfl, hlive⟩
  · exact .inr (.inl rfl)

/-- A task goes on by itself. -/
theorem sound_taskStep (h : Sound s) (ht : s.tasks[t]? = some task) (hstep : s.taskStep t task = some s') :
    Sound s' := by
  cases hpoint : task.point
  case dispatch => exact sound_dispatch h ht hpoint hstep
  case disposing => exact sound_disposing h ht hpoint hstep
  all_goals simp only [taskStep, hpoint, Option.some.injEq, reduceCtorEq] at hstep
  case acquire =>
    have hfits := h.fitsAt ht hpoint
    split at hstep
    · cases hstep
      have henter : Sound (s.goTo t .enter) := h.goTo ht hpoint h.lifts hfits rfl
      exact henter.setLocked (some t)
    · cases hstep
  all_goals rw [← hstep]
  case enter => exact h.enter ht hpoint
  case guardPending => exact h.guardPending ht hpoint
  case samplePending => exact h.samplePending ht hpoint
  case guardActive => exact h.guardActive ht hpoint
  case sampleActive => exact h.sampleActive ht hpoint
  case judging => exact h.judge ht hpoint
  case publishing => exact h.publish ht hpoint
  case loading => exact h.load ht hpoint
  case commit => exact h.tryCommitActive ht hpoint
  case closing => exact h.closeLoading ht hpoint
  case settling => exact h.settleLoading ht hpoint
  case unloading => exact h.unload ht hpoint
  case settlingUnload => exact h.settleUnload ht hpoint
  case retire => exact h.retire ht hpoint
  case clearing => exact h.clear ht hpoint
  case committing =>
    have hfits := h.fitsAt ht hpoint
    exact h.goTo ht hpoint h.lifts hfits rfl

theorem sound_initializerStep (h : Sound s) {outcome : InitializerOutcome} (ht : s.tasks[t]? = some task)
    (hstep : s.initializerStep t task outcome = some s') : Sound s' := by
  rw [initializerStep] at hstep
  split at hstep
  · next generation hpoint =>
    have hfits := h.fitsAt ht hpoint
    have hclosing {finish : Finish} (hgeneration : finish.generation = generation)
        (htarget : finish.target = .pending ∨ finish.target = .disposed) : Sound (s.goTo t (.closing finish)) := by
      refine h.goTo ht hpoint h.lifts ⟨hfits.1, ?_, .inr htarget⟩ rfl
      rw [hgeneration]
      exact hfits.2
    cases outcome with
    | succeeded =>
      cases hstep
      exact h.goTo ht hpoint h.lifts hfits rfl
    | failed =>
      cases hstep
      exact h.goTo ht hpoint h.lifts hfits rfl
    | panicked =>
      cases hstep
      exact hclosing rfl (.inr rfl)
    | cancelled =>
      simp only at hstep
      split at hstep
      · split at hstep
        · cases hstep
          exact hclosing rfl (.inl rfl)
        · cases hstep
      · cases hstep
  · cases hstep

theorem sound_cleanupStep (h : Sound s) {failed : Bool} (ht : s.tasks[t]? = some task)
    (hstep : s.cleanupStep t task failed = some s') : Sound s' := by
  rw [cleanupStep] at hstep
  split at hstep
  · next finish hpoint =>
    have hfits := h.fitsAt ht hpoint
    cases hstep
    exact h.goTo ht hpoint h.lifts hfits rfl
  · next hpoint =>
    have hfits := h.fitsAt ht hpoint
    cases hstep
    exact h.goTo ht hpoint h.lifts hfits rfl
  · cases hstep

/-! ## Steps of calls -/

/-- What a task's place says does not depend on more than the state and the
generation. -/
theorem Fits.congr (hstate : x.state = s.state)
    (hcurrent : x.current.map Generation.id = s.current.map Generation.id) {point : TaskPoint}
    (h : s.Fits point) : x.Fits point := by
  cases point <;> simp only [Fits, Resting, hstate, hcurrent] at h ⊢ <;> exact h

/-- A change of the lifecycle that every task's place fits. -/
theorem Sound.of_lifts (h : Sound s) (hlifts : Lifts s x) (hstate : x.state = s.state)
    (hcurrent : x.current.map Generation.id = s.current.map Generation.id) : Sound x where
  core := hlifts.core
  single := by
    rw [hlifts.tasks, hlifts.inFlight]
    exact h.single
  fits := by
    rw [hlifts.tasks]
    exact fun t task ht => Fits.congr hstate hcurrent (h.fits t task ht)
  rest := by
    rw [hlifts.inFlight, Resting, hstate]
    exact h.rest
  asked := by
    rw [hlifts.tasks]
    exact fun t task ht hrequest => ⟨hlifts.asked (h.asked t task ht hrequest).1, (h.asked t task ht hrequest).2⟩
  calls := by
    rw [hlifts.calls]
    exact fun c call hc hkind => hlifts.asked (h.calls c call hc hkind)
  disposes := by
    rw [hlifts.calls]
    exact fun c call error hc hkind hreturned => hlifts.terminal (h.disposes c call error hc hkind hreturned)
  outcomes := by
    rw [hlifts.tasks]
    exact h.outcomes
  panics := by
    rw [hlifts.calls]
    exact h.panics

/-- A signal that closes the generation does not panic, and leaves every
task's place as it is. -/
theorem Sound.closeSignal (h : Sound s) (hstate : s.state = .active ∨ s.state = .loading) (hx : Flags s x) :
    Sound x.closeCurrentGeneration.1 ∧ x.closeCurrentGeneration.2 = false := by
  obtain ⟨g, hcurrent, hclose, hcore⟩ :=
    h.core.closeCurrentGeneration hstate ⟨hx.state, hx.current, hx.generation, hx.trace⟩
  have hlifts : Lifts s (x.closeGeneration g) :=
    ⟨hcore, hx.tasks, hx.inFlight, hx.calls, hx.asked, fun hdisposed => hx.state.trans hdisposed⟩
  rw [hclose]
  refine ⟨h.of_lifts hlifts hx.state ?_, rfl⟩
  rw [hcurrent]
  rfl

/-- A signal in another state changes flags only. -/
theorem Sound.quietSignal (h : Sound s) (hstate : s.state ≠ .loading) (hx : Flags s x) : Sound x := by
  have hcore : Core x := by
    refine ⟨fun howned => ?_, fun hloading => absurd (hx.state.symm.trans hloading) hstate, ?_, ?_⟩
    · rw [hx.current, hx.generation]
      exact h.core.owned (by rw [← hx.state]; exact howned)
    · rw [hx.trace]
      exact h.core.path
    · rw [hx.trace, hx.state]
      exact h.core.last
  refine h.of_lifts ⟨hcore, hx.tasks, hx.inFlight, hx.calls, hx.asked, fun hdisposed => hx.state.trans hdisposed⟩
    hx.state ?_
  rw [hx.current]

theorem Sound.signalDependencyChange (h : Sound s) (visible : Bool) :
    Sound (s.signalDependencyChange visible).1 ∧ (s.signalDependencyChange visible).2 = false := by
  have hlost : Flags s { s with lost := true } := ⟨rfl, rfl, rfl, rfl, rfl, rfl, rfl, id⟩
  have hinvalid : Flags s { s with lost := true, dependencyInvalidated := true } :=
    ⟨rfl, rfl, rfl, rfl, rfl, rfl, rfl, id⟩
  rw [FiberHandle.signalDependencyChange]
  split
  · exact ⟨h, rfl⟩
  · split
    · next hstate => exact h.closeSignal (.inl hstate) hinvalid
    · next hstate => exact h.closeSignal (.inr hstate) hlost
    all_goals next hstate => exact ⟨h.quietSignal (by simp [hstate]) hlost, rfl⟩

theorem Sound.requestDisposal (h : Sound s) :
    Sound s.requestDisposal.1 ∧ s.requestDisposal.2 = false ∧ s.requestDisposal.1.disposeRequested = true := by
  have hflags : Flags s { s with lost := true, disposeRequested := true } :=
    ⟨rfl, rfl, rfl, rfl, rfl, rfl, rfl, fun _ => rfl⟩
  have hrequested : s.requestDisposal.1.disposeRequested = true := by
    rw [FiberHandle.requestDisposal]
    split
    · rw [FiberHandle.closeCurrentGeneration]
      split <;> rfl
    · rw [FiberHandle.closeCurrentGeneration]
      split <;> rfl
    all_goals rfl
  refine ⟨?_, ?_, hrequested⟩
  · rw [FiberHandle.requestDisposal]
    split
    · next hstate => exact (h.closeSignal (.inl hstate) hflags).1
    · next hstate => exact (h.closeSignal (.inr hstate) hflags).1
    all_goals next hstate => exact h.quietSignal (by simp [hstate]) hflags
  · rw [FiberHandle.requestDisposal]
    split
    · next hstate => exact (h.closeSignal (.inl hstate) hflags).2
    · next hstate => exact (h.closeSignal (.inr hstate) hflags).2
    all_goals rfl

/-- A call goes on. -/
theorem Sound.modifyCall (h : Sound s) {c : Nat} {call : DriveCall} (hc : s.calls[c]? = some call)
    (f : DriveCall → DriveCall) (hkind : (f call).kind = call.kind)
    (hreturned : ∀ error, call.kind = .dispose → (f call).point = .returned error → s.state = .disposed)
    (hpanic : ∀ p, (f call).point = .panicked p → p.Allowed) : Sound { s with calls := s.calls.modify c f } := by
  have hget {c' : Nat} {call' : DriveCall} (hc' : (s.calls.modify c f)[c']? = some call') :
      c' = c ∧ call' = f call ∨ s.calls[c']? = some call' := by
    rw [List.getElem?_modify] at hc'
    by_cases heq : c = c'
    · subst heq
      rw [hc] at hc'
      exact .inl ⟨rfl, by simpa using hc'.symm⟩
    · exact .inr (by simpa [heq] using hc')
  refine ⟨⟨h.core.owned, h.core.voided, h.core.path, h.core.last⟩, h.single, h.fits, h.rest, h.asked, ?_, ?_,
    h.outcomes, ?_⟩
  · intro c' call' hc' hdispose
    rcases hget hc' with ⟨-, rfl⟩ | hold
    · exact h.calls c call hc (hkind.symm.trans hdispose)
    · exact h.calls c' call' hold hdispose
  · intro c' call' error hc' hdispose hpoint
    rcases hget hc' with ⟨-, rfl⟩ | hold
    · exact hreturned error (hkind.symm.trans hdispose) hpoint
    · exact h.disposes c' call' error hold hdispose hpoint
  · intro c' call' p hc' hp
    rcases hget hc' with ⟨-, rfl⟩ | hold
    · exact hpanic p hp
    · exact h.panics c' call' p hold hp

/-- A new call. -/
theorem Sound.called (h : Sound s) {kind : CallKind} {point : CallPoint}
    (hkind : kind = .dispose → s.disposeRequested = true) (hreturned : ∀ error, point ≠ .returned error)
    (hpanic : ∀ p, point ≠ .panicked p) : Sound (s.called kind point) := by
  have hget {c : Nat} {call : DriveCall} (hc : (s.calls ++ [DriveCall.mk kind point none])[c]? = some call) :
      call = { kind, point } ∨ s.calls[c]? = some call := by
    rw [List.getElem?_append] at hc
    split at hc
    · exact .inr hc
    · rw [List.getElem?_singleton] at hc
      split at hc
      · exact .inl (Option.some.inj hc).symm
      · cases hc
  refine ⟨⟨h.core.owned, h.core.voided, h.core.path, h.core.last⟩, h.single, h.fits, h.rest, h.asked, ?_, ?_,
    h.outcomes, ?_⟩
  · intro c call hc hdispose
    rcases hget hc with rfl | hold
    · exact hkind hdispose
    · exact h.calls c call hold hdispose
  · intro c call error hc hdispose hpoint
    rcases hget hc with rfl | hold
    · exact absurd hpoint (hreturned error)
    · exact h.disposes c call error hold hdispose hpoint
  · intro c call p hc hp
    rcases hget hc with rfl | hold
    · exact absurd hp (hpanic p)
    · exact h.panics c call p hold hp

/-- A new transition, while none is in flight. -/
theorem Sound.start (h : Sound s) (hnone : s.inFlight = none) {request : LifecycleRequest}
    (hrequest : request = .dispose → s.disposeRequested = true) :
    Sound { s with tasks := s.tasks ++ [Task.mk request .acquire none], inFlight := some s.tasks.length } := by
  have hfinished {t : Nat} {task : Task} (ht : s.tasks[t]? = some task) : task.point = .finished := by
    by_contra hne
    have hflight := h.single t task ht hne
    rw [hnone] at hflight
    cases hflight
  have hget {t : Nat} {task : Task} (ht : (s.tasks ++ [Task.mk request .acquire none])[t]? = some task) :
      t = s.tasks.length ∧ task = { request } ∨ s.tasks[t]? = some task := by
    rw [List.getElem?_append] at ht
    split at ht
    · exact .inr ht
    · rw [List.getElem?_singleton] at ht
      split at ht
      · exact .inl ⟨by omega, (Option.some.inj ht).symm⟩
      · cases ht
  refine ⟨⟨h.core.owned, h.core.voided, h.core.path, h.core.last⟩, ?_, ?_, ?_, ?_, h.calls, h.disposes, ?_, h.panics⟩
  · intro t task ht hne
    rcases hget ht with ⟨rfl, -⟩ | hold
    · rfl
    · exact absurd (hfinished hold) hne
  · intro t task ht
    rcases hget ht with ⟨-, rfl⟩ | hold
    · exact h.rest hnone
    · rw [hfinished hold]
      exact trivial
  · intro hnone'
    cases hnone'
  · intro t task ht hdispose
    rcases hget ht with ⟨-, rfl⟩ | hold
    · exact ⟨hrequest hdispose, TaskPoint.noConfusion⟩
    · exact h.asked t task hold hdispose
  · intro t task p ht hp
    rcases hget ht with ⟨-, rfl⟩ | hold
    · rcases hp with hp | hp <;> cases hp
    · exact h.outcomes t task p hold hp

theorem subscribe_ne_returned (s : FiberHandle) (error : Option FiberError) : s.subscribe ≠ .returned error := by
  rw [subscribe]
  split <;> exact CallPoint.noConfusion

theorem subscribe_ne_panicked (s : FiberHandle) (p : Panic) : s.subscribe ≠ .panicked p := by
  rw [subscribe]
  split <;> exact CallPoint.noConfusion

theorem calls_signalDependencyChange (s : FiberHandle) (visible : Bool) :
    (s.signalDependencyChange visible).1.calls = s.calls := by
  have hclose (x : FiberHandle) : x.closeCurrentGeneration.1.calls = x.calls := by
    rw [closeCurrentGeneration]
    split <;> rfl
  rw [FiberHandle.signalDependencyChange]
  split
  · rfl
  · split
    · exact hclose _
    · exact hclose _
    all_goals rfl

/-- A follow-up is not needed only by a fiber that was disposed of when asked
to. -/
theorem disposed_of_not_needsFollowUp (h : s.needsFollowUpTransition = false)
    (hrequested : s.disposeRequested = true) : s.state = .disposed := by
  simp only [needsFollowUpTransition, hrequested, Bool.true_and, Bool.or_eq_false_iff] at h
  simpa using h.1

theorem sound_callStep (h : Sound s) {c : Nat} {call : DriveCall} (hc : s.calls[c]? = some call)
    (hstep : s.callStep c call = some s') : Sound s' := by
  rw [callStep] at hstep
  split at hstep
  · next visible hpoint =>
    obtain ⟨hsound, hquiet⟩ := h.signalDependencyChange visible
    have hcalls := calls_signalDependencyChange s visible
    cases hsignal : s.signalDependencyChange visible with
    | mk x panics =>
      rw [hsignal] at hstep hsound hquiet hcalls
      subst hquiet
      cases hstep
      refine hsound.modifyCall (hcalls ▸ hc) _ rfl (fun error hkind hreturned => ?_) fun p hp => ?_
      · simp only [hkind, reduceCtorEq, if_false] at hreturned
        exact absurd hreturned (subscribe_ne_returned x error)
      · simp only at hp
        split at hp
        · cases hp
        · exact absurd hp (subscribe_ne_panicked x p)
  · next hpoint =>
    cases hstep
    rw [joinOrStart]
    split
    · exact h.modifyCall hc _ rfl (by nofun) (by nofun)
    · next hnone =>
      have hrequest : requestOf call.kind = .dispose → s.disposeRequested = true := by
        intro hrequest
        refine h.calls c call hc ?_
        cases hkind : call.kind <;> rw [hkind] at hrequest
        · cases hrequest
        · cases hrequest
      exact (h.start hnone hrequest).modifyCall hc _ rfl (by nofun) (by nofun)
  · next t hpoint =>
    split at hstep
    · cases hstep
      exact h.modifyCall hc _ rfl (by nofun) (by nofun)
    · next ht =>
      cases hstep
      refine h.modifyCall hc _ rfl (by nofun) fun p hp => ?_
      cases hp
      exact h.outcomes t _ _ ht (.inl rfl)
    · cases hstep
  · next hpoint =>
    cases hstep
    refine h.modifyCall hc _ rfl (fun error hkind hreturned => ?_) fun p hp => ?_
    · simp only at hreturned
      split at hreturned
      · cases hreturned
      · next hnot => exact disposed_of_not_needsFollowUp (by simpa using hnot) (h.calls c call hc hkind)
    · simp only at hp
      split at hp <;> cases hp
  · cases hstep
  · cases hstep

theorem sound_step {event : HandleEvent} (h : Sound s) (hstep : s.step event = some s') : Sound s' := by
  cases event with
  | setVisible visible =>
    cases hstep
    exact ⟨⟨h.core.owned, h.core.voided, h.core.path, h.core.last⟩, h.single, h.fits, h.rest, h.asked, h.calls,
      h.disposes, h.outcomes, h.panics⟩
  | reconcile =>
    cases hstep
    exact h.called CallKind.noConfusion (fun _ => CallPoint.noConfusion) fun _ => CallPoint.noConfusion
  | dependenciesChanged =>
    cases hstep
    exact h.called CallKind.noConfusion (fun _ => CallPoint.noConfusion) fun _ => CallPoint.noConfusion
  | dispose =>
    obtain ⟨hsound, hquiet, hrequested⟩ := h.requestDisposal
    rw [step] at hstep
    cases hrequest : s.requestDisposal with
    | mk x panics =>
      rw [hrequest] at hstep hsound hquiet hrequested
      subst hquiet
      cases hstep
      exact hsound.called (fun _ => hrequested) (subscribe_ne_returned x) (subscribe_ne_panicked x)
  | call c =>
    rw [step] at hstep
    split at hstep
    · next call hc => exact sound_callStep h hc hstep
    · cases hstep
  | task t =>
    rw [step] at hstep
    split at hstep
    · next task ht => exact sound_taskStep h ht hstep
    · cases hstep
  | initialized t outcome =>
    rw [step] at hstep
    split at hstep
    · next task ht => exact sound_initializerStep h ht hstep
    · cases hstep
  | cleaned t failed =>
    rw [step] at hstep
    split at hstep
    · next task ht => exact sound_cleanupStep h ht hstep
    · cases hstep

theorem sound_run {events : List HandleEvent} (hrun : Transition.run step {} events = some s) : Sound s :=
  Transition.run_preserves (fun _ _ _ h => sound_step h) hrun sound_initial

/-! ## Commits -/

@[simp] theorem state_goTo (s : FiberHandle) (t : Nat) (point : TaskPoint) : (s.goTo t point).state = s.state := rfl
@[simp] theorem state_complete (s : FiberHandle) (t : Nat) (outcome : TransitionOutcome) :
    (s.complete t outcome).state = s.state := rfl
@[simp] theorem state_callTo (s : FiberHandle) (c : Nat) (point : CallPoint) : (s.callTo c point).state = s.state := rfl

attribute [simp] state_transitionTo

theorem state_closeCurrentGeneration (s : FiberHandle) : s.closeCurrentGeneration.1.state = s.state := by
  rw [closeCurrentGeneration]
  split <;> rfl

theorem state_signalDependencyChange (s : FiberHandle) (visible : Bool) :
    (s.signalDependencyChange visible).1.state = s.state := by
  rw [FiberHandle.signalDependencyChange]
  split
  · rfl
  · split
    · exact state_closeCurrentGeneration _
    · exact state_closeCurrentGeneration _
    all_goals rfl

theorem state_requestDisposal (s : FiberHandle) : s.requestDisposal.1.state = s.state := by
  rw [FiberHandle.requestDisposal]
  split
  · exact state_closeCurrentGeneration _
  · exact state_closeCurrentGeneration _
  all_goals rfl

/-- A call does not change the state. -/
theorem state_callStep {c : Nat} {call : DriveCall} (hstep : s.callStep c call = some s') : s'.state = s.state := by
  rw [callStep] at hstep
  split at hstep
  · next visible hpoint =>
    have hstate := state_signalDependencyChange s visible
    split at hstep
    · next x hx =>
      rw [hx] at hstate
      cases hstep
      exact hstate
    · next x hx =>
      rw [hx] at hstate
      cases hstep
      exact hstate
  · cases hstep
    rw [joinOrStart]
    split <;> rfl
  · split at hstep
    · cases hstep
      rfl
    · cases hstep
      rfl
    · cases hstep
  · cases hstep
    rfl
  · cases hstep
  · cases hstep

/-- A load that fails or is given up does not make the fiber active. -/
theorem targetOf_ne_active {finish : Finish}
    (h : finish.target = .failed ∧ finish.initialization = true ∨ finish.target = .pending ∨
      finish.target = .disposed) :
    s.targetOf finish.target ≠ .active := by
  rw [targetOf]
  split
  · exact FiberState.noConfusion
  · rcases h with ⟨hfailed, -⟩ | hpending | hdisposed
    · simp [hfailed]
    · simp [hpending]
    · simp [hdisposed]

/-- A transition makes a fiber active in one place only. -/
theorem commit_of_active (h : Sound s) (ht : s.tasks[t]? = some task) (hstep : s.taskStep t task = some s')
    (hbefore : s.state ≠ .active) (hafter : s'.state = .active) :
    ∃ generation visible, task.point = .commit generation visible ∧ s.loadingGenerationIsLive generation = true := by
  cases hpoint : task.point
  all_goals simp only [taskStep, hpoint, Option.some.injEq, reduceCtorEq] at hstep
  case commit generation visible =>
    refine ⟨generation, visible, rfl, ?_⟩
    rw [← hstep, FiberHandle.tryCommitActive] at hafter
    by_contra hlive
    rw [Bool.not_eq_true] at hlive
    simp only [hlive, Bool.false_eq_true, if_false] at hafter
    split at hafter
    · exact hbefore hafter
    · split at hafter
      · have hstate := state_closeCurrentGeneration { s with lost := true }
        split at hafter
        · next x hx =>
          rw [hx] at hstate
          exact hbefore (hstate.symm.trans hafter)
        · next x hx =>
          rw [hx] at hstate
          exact hbefore (hstate.symm.trans hafter)
      · exact hbefore hafter
  case loading =>
    rw [← hstep, FiberHandle.load] at hafter
    split at hafter
    · exact absurd hafter hbefore
    · split at hafter
      · exact absurd hafter hbefore
      · simp at hafter
  case closing finish =>
    rw [← hstep, FiberHandle.closeLoading] at hafter
    split at hafter
    · split at hafter
      · exact absurd hafter hbefore
      · exact absurd hafter hbefore
    · exact absurd hafter hbefore
  case settling finish cleanupFailed =>
    have hfits := h.fitsAt ht hpoint
    rw [← hstep, FiberHandle.settleLoading, state_complete, state_transitionTo] at hafter
    exact absurd hafter (targetOf_ne_active hfits.2.2)
  case unloading disposing =>
    exact absurd (h.fitsAt ht hpoint) hbefore
  case settlingUnload cleanupFailed =>
    rw [← hstep, FiberHandle.settleUnload] at hafter
    rcases s.targetOf_pending with htarget | htarget <;> simp [htarget] at hafter
  case retire =>
    rw [← hstep] at hafter
    simp at hafter
  all_goals
    refine absurd ?_ hbefore
    grind [FiberHandle.goTo, FiberHandle.complete]

theorem state_initializerStep {outcome : InitializerOutcome}
    (hstep : s.initializerStep t task outcome = some s') : s'.state = s.state := by
  rw [initializerStep] at hstep
  grind [FiberHandle.goTo]

theorem state_cleanupStep {failed : Bool} (hstep : s.cleanupStep t task failed = some s') : s'.state = s.state := by
  rw [cleanupStep] at hstep
  grind [FiberHandle.goTo]

/-- A generation is committed only while nothing was lost since its load
began. -/
theorem lost_of_commit (h : Sound s) {event : HandleEvent} (hstep : s.step event = some s')
    (hbefore : s.state ≠ .active) (hafter : s'.state = .active) : s.lost = false := by
  cases event with
  | setVisible visible =>
    cases hstep
    exact absurd hafter hbefore
  | reconcile =>
    cases hstep
    exact absurd hafter hbefore
  | dependenciesChanged =>
    cases hstep
    exact absurd hafter hbefore
  | dispose =>
    have hstate := state_requestDisposal s
    rw [step] at hstep
    split at hstep
    · next x hx =>
      rw [hx] at hstate
      cases hstep
      exact absurd (hstate.symm.trans hafter) hbefore
    · next x hx =>
      rw [hx] at hstate
      cases hstep
      exact absurd (hstate.symm.trans hafter) hbefore
  | call c =>
    rw [step] at hstep
    split at hstep
    · exact absurd ((state_callStep hstep).symm.trans hafter) hbefore
    · cases hstep
  | initialized t outcome =>
    rw [step] at hstep
    split at hstep
    · exact absurd ((state_initializerStep hstep).symm.trans hafter) hbefore
    · cases hstep
  | cleaned t failed =>
    rw [step] at hstep
    split at hstep
    · exact absurd ((state_cleanupStep hstep).symm.trans hafter) hbefore
    · cases hstep
  | task t =>
    rw [step] at hstep
    split at hstep
    · next task ht =>
      obtain ⟨generation, visible, hpoint, hlive⟩ := commit_of_active h ht hstep hbefore hafter
      have hfits := h.fits t task ht
      rw [hpoint] at hfits
      obtain ⟨hloading, hcurrent⟩ := hfits
      simp only [loadingGenerationIsLive, Bool.and_eq_true, beq_iff_eq, Bool.not_eq_true'] at hlive
      obtain ⟨⟨⟨-, hgeneration⟩, hrequested⟩, -⟩ := hlive
      by_contra hlost
      rw [Bool.not_eq_false] at hlost
      rcases h.core.voided hloading hlost with hdispose | hvoid
      · rw [hrequested] at hdispose
        cases hdispose
      · obtain ⟨g, hg, hid⟩ := Option.map_eq_some_iff.mp hcurrent
        exact hvoid g hg (hgeneration.trans hid.symm)
    · cases hstep

/-! ## The trace -/

theorem trace_transitionTo (hx : x.trace = s.trace) (state : FiberState) :
    s.trace <+: (x.transitionTo state).trace := by
  rw [FiberHandle.transitionTo]
  split
  · exact hx ▸ List.prefix_refl _
  · rw [← hx]
    exact List.prefix_append _ _

theorem trace_closeCurrentGeneration (s : FiberHandle) : s.closeCurrentGeneration.1.trace = s.trace := by
  rw [closeCurrentGeneration]
  split <;> rfl

theorem trace_signalDependencyChange (s : FiberHandle) (visible : Bool) :
    (s.signalDependencyChange visible).1.trace = s.trace := by
  rw [FiberHandle.signalDependencyChange]
  split
  · rfl
  · split
    · exact trace_closeCurrentGeneration _
    · exact trace_closeCurrentGeneration _
    all_goals rfl

theorem trace_requestDisposal (s : FiberHandle) : s.requestDisposal.1.trace = s.trace := by
  rw [FiberHandle.requestDisposal]
  split
  · exact trace_closeCurrentGeneration _
  · exact trace_closeCurrentGeneration _
  all_goals rfl

theorem trace_callStep {c : Nat} {call : DriveCall} (hstep : s.callStep c call = some s') : s'.trace = s.trace := by
  rw [callStep] at hstep
  split at hstep
  · next visible hpoint =>
    have htrace := trace_signalDependencyChange s visible
    split at hstep
    · next x hx =>
      rw [hx] at htrace
      cases hstep
      exact htrace
    · next x hx =>
      rw [hx] at htrace
      cases hstep
      exact htrace
  · cases hstep
    rw [joinOrStart]
    split <;> rfl
  · split at hstep
    · cases hstep
      rfl
    · cases hstep
      rfl
    · cases hstep
  · cases hstep
    rfl
  · cases hstep
  · cases hstep

theorem trace_taskStep (hstep : s.taskStep t task = some s') : s.trace <+: s'.trace := by
  cases hpoint : task.point
  all_goals simp only [taskStep, hpoint, Option.some.injEq, reduceCtorEq] at hstep
  case loading =>
    rw [← hstep, FiberHandle.load]
    split
    · exact List.prefix_refl _
    · split
      · exact List.prefix_refl _
      · have hnew : s.newGeneration.trace = s.trace := rfl
        exact trace_transitionTo hnew _
  case commit generation visible =>
    rw [← hstep, FiberHandle.tryCommitActive]
    split
    · split
      · exact trace_transitionTo rfl _
      · exact List.prefix_refl _
    · split
      · have htrace := trace_closeCurrentGeneration { s with lost := true }
        split
        · next x hx =>
          rw [hx] at htrace
          exact htrace ▸ List.prefix_refl _
        · next x hx =>
          rw [hx] at htrace
          exact htrace ▸ List.prefix_refl _
      · exact List.prefix_refl _
  case closing finish =>
    rw [← hstep, FiberHandle.closeLoading]
    split
    · split <;> exact List.prefix_refl _
    · exact List.prefix_refl _
  case settling finish cleanupFailed =>
    rw [← hstep]
    have hdrop : (s.dropGeneration finish.generation).trace = s.trace := rfl
    exact trace_transitionTo hdrop _
  case unloading disposing =>
    rw [← hstep, FiberHandle.unload]
    split
    · exact List.prefix_refl _
    · split
      · next g hcurrent =>
        have hleave : (s.leaveGeneration g disposing).trace = s.trace := rfl
        exact trace_transitionTo hleave _
      · exact List.prefix_refl _
  case settlingUnload cleanupFailed =>
    rw [← hstep]
    exact trace_transitionTo (x := { s with current := none }) rfl _
  case retire =>
    rw [← hstep]
    exact trace_transitionTo (x := { s with current := none }) rfl _
  all_goals
    have htrace : s'.trace = s.trace := by grind [FiberHandle.goTo, FiberHandle.complete]
    exact htrace ▸ List.prefix_refl _

/-- The trace only grows. -/
theorem trace_step {event : HandleEvent} (hstep : s.step event = some s') : s.trace <+: s'.trace := by
  cases event with
  | setVisible visible =>
    cases hstep
    exact List.prefix_refl _
  | reconcile =>
    cases hstep
    exact List.prefix_refl _
  | dependenciesChanged =>
    cases hstep
    exact List.prefix_refl _
  | dispose =>
    have htrace := trace_requestDisposal s
    rw [step] at hstep
    split at hstep
    · next x hx =>
      rw [hx] at htrace
      cases hstep
      exact htrace ▸ List.prefix_refl _
    · next x hx =>
      rw [hx] at htrace
      cases hstep
      exact htrace ▸ List.prefix_refl _
  | call c =>
    rw [step] at hstep
    split at hstep
    · exact trace_callStep hstep ▸ List.prefix_refl _
    · cases hstep
  | task t =>
    rw [step] at hstep
    split at hstep
    · exact trace_taskStep hstep
    · cases hstep
  | initialized t outcome =>
    simp only [step, initializerStep] at hstep
    have htrace : s'.trace = s.trace := by grind [FiberHandle.goTo]
    exact htrace ▸ List.prefix_refl _
  | cleaned t failed =>
    simp only [step, cleanupStep] at hstep
    have htrace : s'.trace = s.trace := by grind [FiberHandle.goTo]
    exact htrace ▸ List.prefix_refl _

theorem head_trace_run {events : List HandleEvent} (hrun : Transition.run step {} events = some s) :
    s.trace.head? = some .pending := by
  have hgrows : [FiberState.pending] <+: s.trace :=
    Transition.run_relates (R := fun s s' : FiberHandle => s.trace <+: s'.trace)
      (fun _ => List.prefix_refl _) (fun _ _ _ _ hbefore hstep => hbefore.trans (trace_step hstep)) hrun
  obtain ⟨rest, hrest⟩ := hgrows
  rw [← hrest]
  rfl

/-! ## The main result -/

/-- The task's initializer runs. -/
def Initializing (s : FiberHandle) (t : Nat) : Prop :=
  ∃ task generation, s.tasks[t]? = some task ∧ task.point = .initializing generation

/-- The life of a fiber is safe under any interleaving: its trace is a path of
the graph, one initializer runs at a time, a generation is committed only if
nothing was lost since its load began, nothing panics but the initializer and
a load that meets a disposal, and a disposal that returns has disposed. -/
theorem lifecycle_safe {events : List HandleEvent} {s : FiberHandle} (hrun : Transition.run step {} events = some s) :
    (s.trace.IsChain Edge ∧ s.trace.head? = some .pending ∧ s.trace.getLast? = some s.state) ∧
    (∀ t t' : Nat, s.Initializing t → s.Initializing t' → t = t') ∧
    (∀ (event : HandleEvent) (s' : FiberHandle), s.step event = some s' → s.state ≠ .active → s'.state = .active →
      s.lost = false) ∧
    (∀ (t : Nat) (task : Task) (p : Panic), s.tasks[t]? = some task →
      (task.outcome = some (.panicked p) ∨ task.point = .publishing (.panicked p)) → p.Allowed) ∧
    (∀ (c : Nat) (call : DriveCall) (p : Panic), s.calls[c]? = some call → call.point = .panicked p → p.Allowed) ∧
    (∀ (c : Nat) (call : DriveCall) (error : Option FiberError), s.calls[c]? = some call → call.kind = .dispose →
      call.point = .returned error → s.state = .disposed) := by
  have h := sound_run hrun
  refine ⟨⟨h.core.path, ?_, h.core.last⟩, ?_, ?_, h.outcomes, h.panics, h.disposes⟩
  · exact head_trace_run hrun
  · rintro t t' ⟨task, generation, ht, hpoint⟩ ⟨task', generation', ht', hpoint'⟩
    have hflight := h.single t task ht (by rw [hpoint]; exact TaskPoint.noConfusion)
    have hflight' := h.single t' task' ht' (by rw [hpoint']; exact TaskPoint.noConfusion)
    exact Option.some.inj (hflight.symm.trans hflight')
  · intro event s' hstep hbefore hafter
    exact lost_of_commit h hstep hbefore hafter

/-- A fiber is loaded, then disposed of while active. -/
def loadedThenDisposed : List HandleEvent :=
  [.setVisible true, .reconcile, .call 0, .call 0, .task 0, .task 0, .task 0, .task 0, .task 0, .task 0,
    .initialized 0 .succeeded, .task 0, .task 0, .task 0, .task 0, .call 0, .call 0,
    .dispose, .call 1, .task 1, .task 1, .task 1, .task 1, .cleaned 1 false, .task 1, .task 1, .task 1,
    .call 1, .call 1]

theorem lifecycle_safe_through_disposal :
    ∃ s, Transition.run step {} loadedThenDisposed = some s ∧
      s.trace = [.pending, .loading, .active, .unloading, .disposed] ∧ s.trace.IsChain Edge ∧ s.state = .disposed := by
  have hrun : Transition.run step {} loadedThenDisposed = some _ := rfl
  obtain ⟨⟨hpath, -, -⟩, -, -, -, -, hdisposed⟩ := lifecycle_safe hrun
  exact ⟨_, hrun, rfl, hpath, hdisposed 1 _ none rfl rfl rfl⟩

end FiberHandle

end MinionAgent.Rust
