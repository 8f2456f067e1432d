import MinionAgent.Runtime.Lifecycle

/-!
# MinionAgent.Runtime.Follow

When a `reconcile` of a Rust fiber is followed: it is called while every
dependency is visible, they stay visible, and the fiber is active when the
call returns.

A call joins the transition in flight and takes its outcome, and a fiber that
lost a dependency is unloaded even if the dependency has come back.  So a call
is followed where nothing in flight has turned against the fiber before it.

* `FiberHandle.Calm` — what runs keep in which no disposal is requested and
  no initializer fails;
* `FiberHandle.Receptive` — nothing has turned against the fiber;
* `reconcile_followed` — the call is followed.
-/

namespace MinionAgent.Rust

namespace FiberHandle

/-! ## Runs without failures -/

/-- No disposal, and no initializer that fails or panics. -/
def Mild : HandleEvent → Prop
  | .dispose => False
  | .initialized _ outcome => outcome = .succeeded ∨ outcome = .cancelled
  | _ => True

/-- A place that tasks reach in such runs. -/
def CalmPoint : TaskPoint → Prop
  | .disposing | .retire | .judging _ => False
  | .closing finish | .cleaning finish | .settling finish _ => finish.target = .pending
  | .unloading disposing => disposing = false
  | _ => True

/-- A task in such a run: its outcome is set when it is published. -/
structure CalmTask (task : Task) : Prop where
  request : task.request = .reconcile
  point : CalmPoint task.point
  outcome : task.outcome ≠ none → task.point = .clearing ∨ task.point = .finished

/-- What such runs keep. -/
structure Calm (s : FiberHandle) : Prop where
  requested : s.disposeRequested = false
  state : s.state ≠ .failed ∧ s.state ≠ .disposed
  tasks : ∀ (t : Nat) (task : Task), s.tasks[t]? = some task → CalmTask task
  flight : ∀ t : Nat, s.inFlight = some t → ∃ task, s.tasks[t]? = some task ∧ task.point ≠ .finished
  calls : ∀ (c : Nat) (call : DriveCall), s.calls[c]? = some call → call.kind ≠ .dispose

variable {s s' x : FiberHandle} {c t : Nat} {task : Task}

theorem calm_initial : Calm {} where
  requested := rfl
  state := by simp
  tasks := by simp
  flight := by simp
  calls := by simp

/-- A change of the lifecycle that neither disposes nor fails. -/
structure Steady (s x : FiberHandle) : Prop where
  requested : x.disposeRequested = s.disposeRequested
  state : x.state ≠ .failed ∧ x.state ≠ .disposed
  tasks : x.tasks = s.tasks
  inFlight : x.inFlight = s.inFlight
  calls : x.calls = s.calls

theorem Calm.steady (h : Calm s) : Steady s s := ⟨rfl, h.state, rfl, rfl, rfl⟩

theorem Steady.transitionTo (hx : Steady s x) {state : FiberState}
    (hstate : state ≠ .failed ∧ state ≠ .disposed) : Steady s (x.transitionTo state) := by
  rw [FiberHandle.transitionTo]
  split
  · exact hx
  · exact ⟨hx.requested, hstate, hx.tasks, hx.inFlight, hx.calls⟩

theorem steady_closeCurrentGeneration (hx : Steady s x) : Steady s x.closeCurrentGeneration.1 := by
  rw [closeCurrentGeneration]
  split <;> exact ⟨hx.requested, hx.state, hx.tasks, hx.inFlight, hx.calls⟩

theorem steady_signalDependencyChange (h : Calm s) (visible : Bool) :
    Steady s (s.signalDependencyChange visible).1 := by
  have hlost : Steady s { s with lost := true } := ⟨rfl, h.state, rfl, rfl, rfl⟩
  have hinvalid : Steady s { s with lost := true, dependencyInvalidated := true } := ⟨rfl, h.state, rfl, rfl, rfl⟩
  rw [FiberHandle.signalDependencyChange]
  split
  · exact h.steady
  · split
    · exact steady_closeCurrentGeneration hinvalid
    · exact steady_closeCurrentGeneration hlost
    all_goals exact hlost

theorem Steady.calm (h : Calm s) (hx : Steady s x) : Calm x where
  requested := hx.requested.trans h.requested
  state := hx.state
  tasks := by
    rw [hx.tasks]
    exact h.tasks
  flight := by
    rw [hx.inFlight, hx.tasks]
    exact h.flight
  calls := by
    rw [hx.calls]
    exact h.calls

/-- A task goes on. -/
theorem Calm.modifyTask (h : Calm s) (ht : s.tasks[t]? = some task) (f : Task → Task) (hf : CalmTask (f task))
    (hpoint : (f task).point ≠ .finished) : Calm { s with tasks := s.tasks.modify t f } := by
  refine ⟨h.requested, h.state, fun t' task' ht' => ?_, fun t' hflight => ?_, h.calls⟩
  · rw [List.getElem?_modify] at ht'
    by_cases heq : t = t'
    · subst heq
      rw [ht] at ht'
      have htask : f task = task' := by simpa using ht'
      exact htask ▸ hf
    · exact h.tasks t' task' (by simpa [heq] using ht')
  · obtain ⟨task', ht', hunfinished⟩ := h.flight t' hflight
    by_cases heq : t = t'
    · subst heq
      exact ⟨f task, by simp [ht], hpoint⟩
    · exact ⟨task', by simpa [List.getElem?_modify, heq] using ht', hunfinished⟩

theorem Calm.goTo (h : Calm s) (ht : s.tasks[t]? = some task)
    (hbusy : task.point ≠ .clearing ∧ task.point ≠ .finished) (hx : Steady s x) {point : TaskPoint}
    (hcalm : CalmPoint point) (hpoint : point ≠ .finished) : Calm (x.goTo t point) := by
  have hsteady := hx.calm h
  refine hsteady.modifyTask (hx.tasks ▸ ht) _ ⟨(h.tasks t task ht).request, hcalm, fun houtcome => ?_⟩ hpoint
  exact absurd ((h.tasks t task ht).outcome houtcome) (not_or.mpr hbusy)

theorem Calm.setLocked (h : Calm s) (locked : Option Nat) : Calm { s with locked } :=
  ⟨h.requested, h.state, h.tasks, h.flight, h.calls⟩

theorem Calm.complete (h : Calm s) (ht : s.tasks[t]? = some task)
    (hbusy : task.point ≠ .clearing ∧ task.point ≠ .finished) (hx : Steady s x) {outcome : TransitionOutcome} :
    Calm (x.complete t outcome) := by
  have hpublishing : Calm (x.goTo t (.publishing outcome)) := h.goTo ht hbusy hx trivial TaskPoint.noConfusion
  exact hpublishing.setLocked none

theorem calm_load (h : Calm s) (ht : s.tasks[t]? = some task)
    (hbusy : task.point ≠ .clearing ∧ task.point ≠ .finished) : Calm (s.load t) := by
  rw [FiberHandle.load]
  split
  · exact h.complete ht hbusy h.steady
  · split
    · exact h.complete ht hbusy h.steady
    · have hnew : Steady s s.newGeneration := ⟨rfl, h.state, rfl, rfl, rfl⟩
      exact h.goTo ht hbusy (hnew.transitionTo (by decide)) trivial TaskPoint.noConfusion

theorem calm_tryCommitActive (h : Calm s) (ht : s.tasks[t]? = some task)
    (hbusy : task.point ≠ .clearing ∧ task.point ≠ .finished) (generation : Nat) (visible : Bool) :
    Calm (s.tryCommitActive t generation visible) := by
  have hclosing {x : FiberHandle} (hx : Steady s x) :
      Calm (x.goTo t (.closing { generation, target := .pending })) := h.goTo ht hbusy hx rfl TaskPoint.noConfusion
  have hlost : Steady s { s with lost := true } := ⟨rfl, h.state, rfl, rfl, rfl⟩
  have hclosed := steady_closeCurrentGeneration hlost
  rw [FiberHandle.tryCommitActive]
  split
  · split
    · exact h.complete ht hbusy (h.steady.transitionTo (by decide))
    · exact hclosing h.steady
  · split
    · split
      · next x hx =>
        rw [hx] at hclosed
        exact hclosing hclosed
      · next x hx =>
        rw [hx] at hclosed
        exact h.complete ht hbusy hclosed
    · exact hclosing h.steady

theorem calm_closeLoading (h : Calm s) (ht : s.tasks[t]? = some task)
    (hbusy : task.point ≠ .clearing ∧ task.point ≠ .finished) {finish : Finish}
    (htarget : finish.target = .pending) : Calm (s.closeLoading t finish) := by
  rw [FiberHandle.closeLoading]
  split
  · next g hcurrent =>
    split
    · have hclose : Steady s (s.closeGeneration g) := ⟨rfl, h.state, rfl, rfl, rfl⟩
      exact h.goTo ht hbusy hclose htarget TaskPoint.noConfusion
    · exact h.complete ht hbusy h.steady
  · exact h.complete ht hbusy h.steady

/-- A cleanup ends in `Pending` unless a disposal was requested. -/
theorem Calm.targetOf (h : Calm s) : s.targetOf .pending = .pending := by
  simp [FiberHandle.targetOf, h.requested]

theorem calm_settleLoading (h : Calm s) (ht : s.tasks[t]? = some task)
    (hbusy : task.point ≠ .clearing ∧ task.point ≠ .finished) {finish : Finish}
    (htarget : finish.target = .pending) (cleanupFailed : Bool) : Calm (s.settleLoading t finish cleanupFailed) := by
  have hdrop : Steady s (s.dropGeneration finish.generation) := ⟨rfl, h.state, rfl, rfl, rfl⟩
  rw [FiberHandle.settleLoading, htarget, h.targetOf]
  exact h.complete ht hbusy (hdrop.transitionTo (by decide))

theorem calm_unload (h : Calm s) (ht : s.tasks[t]? = some task)
    (hbusy : task.point ≠ .clearing ∧ task.point ≠ .finished) {disposing : Bool}
    (hdisposing : disposing = false) : Calm (s.unload t disposing) := by
  rw [FiberHandle.unload]
  split
  · exact h.complete ht hbusy h.steady
  · split
    · next g hcurrent =>
      have hleave : Steady s (s.leaveGeneration g disposing) :=
        ⟨by simp [leaveGeneration, hdisposing], h.state, rfl, rfl, rfl⟩
      exact h.goTo ht hbusy (hleave.transitionTo (by decide)) trivial TaskPoint.noConfusion
    · exact h.complete ht hbusy h.steady

theorem calm_settleUnload (h : Calm s) (ht : s.tasks[t]? = some task)
    (hbusy : task.point ≠ .clearing ∧ task.point ≠ .finished) (cleanupFailed : Bool) :
    Calm (s.settleUnload t cleanupFailed) := by
  have hleft : Steady s { s with current := none } := ⟨rfl, h.state, rfl, rfl, rfl⟩
  rw [FiberHandle.settleUnload, h.targetOf]
  exact h.complete ht hbusy (hleft.transitionTo (by decide))

theorem calm_taskStep (hsound : Sound s) (h : Calm s) (ht : s.tasks[t]? = some task)
    (hstep : s.taskStep t task = some s') : Calm s' := by
  have hrequest := (h.tasks t task ht).request
  have hcalm := (h.tasks t task ht).point
  have hmove {point : TaskPoint} (hbusy : task.point ≠ .clearing ∧ task.point ≠ .finished) (hcalm : CalmPoint point)
      (hpoint : point ≠ .finished) : Calm (s.goTo t point) := h.goTo ht hbusy h.steady hcalm hpoint
  have hdone {outcome : TransitionOutcome} (hbusy : task.point ≠ .clearing ∧ task.point ≠ .finished) :
      Calm (s.complete t outcome) := h.complete ht hbusy h.steady
  cases hpoint : task.point
  all_goals rw [hpoint] at hcalm hmove hdone
  all_goals simp only [taskStep, hpoint, hrequest, Option.some.injEq, reduceCtorEq, if_false] at hstep
  case disposing => exact hcalm.elim
  case retire => exact hcalm.elim
  case judging => exact hcalm.elim
  case loading => exact hstep ▸ calm_load h ht (by simp [hpoint])
  case commit => exact hstep ▸ calm_tryCommitActive h ht (by simp [hpoint]) _ _
  case closing => exact hstep ▸ calm_closeLoading h ht (by simp [hpoint]) hcalm
  case settling => exact hstep ▸ calm_settleLoading h ht (by simp [hpoint]) hcalm _
  case unloading => exact hstep ▸ calm_unload h ht (by simp [hpoint]) hcalm
  case settlingUnload => exact hstep ▸ calm_settleUnload h ht (by simp [hpoint]) _
  case acquire =>
    split at hstep
    · cases hstep
      have henter : Calm (s.goTo t .enter) := hmove (by simp) trivial TaskPoint.noConfusion
      exact henter.setLocked (some t)
    · cases hstep
  case enter =>
    simp only [h.requested, Bool.false_eq_true, if_false] at hstep
    exact hstep ▸ hmove (by simp) trivial TaskPoint.noConfusion
  case dispatch =>
    cases hstate : s.state <;> rw [hstate] at hstep <;> simp only [Option.some.injEq] at hstep
    · exact hstep ▸ hmove (by simp) trivial TaskPoint.noConfusion
    · exact hstep ▸ hdone (by simp)
    · exact hstep ▸ hmove (by simp) trivial TaskPoint.noConfusion
    all_goals exact hstep ▸ hdone (by simp)
  case guardPending =>
    simp only [h.requested, Bool.false_eq_true, if_false] at hstep
    exact hstep ▸ hmove (by simp) trivial TaskPoint.noConfusion
  case samplePending =>
    rw [← hstep]
    split
    · exact hmove (by simp) trivial TaskPoint.noConfusion
    · exact hdone (by simp)
  case guardActive =>
    rw [← hstep]
    split
    · exact hmove (by simp) rfl TaskPoint.noConfusion
    · exact hmove (by simp) trivial TaskPoint.noConfusion
  case sampleActive =>
    rw [← hstep]
    split
    · exact hdone (by simp)
    · exact hmove (by simp) rfl TaskPoint.noConfusion
  case committing => exact hstep ▸ hmove (by simp) trivial TaskPoint.noConfusion
  case publishing => exact hstep ▸ h.modifyTask ht _ ⟨hrequest, trivial, fun _ => .inl rfl⟩ TaskPoint.noConfusion
  case clearing =>
    have hflight := hsound.single t task ht (by simp [hpoint])
    rw [if_pos hflight] at hstep
    rw [← hstep]
    refine ⟨h.requested, h.state, fun t' task' ht' => ?_, by simp, h.calls⟩
    rw [show (s.goTo t .finished).tasks = s.tasks.modify t fun task => { task with point := .finished } from rfl,
      List.getElem?_modify] at ht'
    by_cases heq : t = t'
    · subst heq
      rw [ht] at ht'
      have htask : { task with point := .finished } = task' := by simpa using ht'
      exact htask ▸ ⟨hrequest, trivial, fun _ => .inr rfl⟩
    · exact h.tasks t' task' (by simpa [heq] using ht')

theorem calm_initializerStep (h : Calm s) {outcome : InitializerOutcome}
    (hmild : outcome = .succeeded ∨ outcome = .cancelled) (ht : s.tasks[t]? = some task)
    (hstep : s.initializerStep t task outcome = some s') : Calm s' := by
  rw [initializerStep] at hstep
  split at hstep
  · next generation hpoint =>
    have hmove {point : TaskPoint} (hcalm : CalmPoint point) (hne : point ≠ .finished) : Calm (s.goTo t point) :=
      h.goTo ht (by simp [hpoint]) h.steady hcalm hne
    rcases hmild with rfl | rfl
    · cases hstep
      exact hmove trivial TaskPoint.noConfusion
    · simp only at hstep
      split at hstep
      · split at hstep
        · cases hstep
          exact hmove rfl TaskPoint.noConfusion
        · cases hstep
      · cases hstep
  · cases hstep

theorem calm_cleanupStep (h : Calm s) {failed : Bool} (ht : s.tasks[t]? = some task)
    (hstep : s.cleanupStep t task failed = some s') : Calm s' := by
  have hcalm := (h.tasks t task ht).point
  rw [cleanupStep] at hstep
  split at hstep
  · next finish hpoint =>
    rw [hpoint] at hcalm
    cases hstep
    exact h.goTo ht (by simp [hpoint]) h.steady hcalm TaskPoint.noConfusion
  · next hpoint =>
    cases hstep
    exact h.goTo ht (by simp [hpoint]) h.steady trivial TaskPoint.noConfusion
  · cases hstep

theorem Calm.modifyCall (h : Calm s) {call : DriveCall} (hc : s.calls[c]? = some call)
    (f : DriveCall → DriveCall) (hf : (f call).kind = call.kind) : Calm { s with calls := s.calls.modify c f } := by
  refine ⟨h.requested, h.state, h.tasks, h.flight, fun c' call' hc' => ?_⟩
  rw [List.getElem?_modify] at hc'
  by_cases heq : c = c'
  · subst heq
    rw [hc] at hc'
    have hcall : f call = call' := by simpa using hc'
    rw [← hcall, hf]
    exact h.calls c call hc
  · exact h.calls c' call' (by simpa [heq] using hc')

/-- A new transition, while none is in flight. -/
theorem Calm.start (h : Calm s) :
    Calm { s with tasks := s.tasks ++ [Task.mk .reconcile .acquire none], inFlight := some s.tasks.length } := by
  refine ⟨h.requested, h.state, fun t task ht => ?_, fun t hflight => ?_, h.calls⟩
  · rw [List.getElem?_append] at ht
    split at ht
    · exact h.tasks t task ht
    · rw [List.getElem?_singleton] at ht
      split at ht
      · cases ht
        exact ⟨rfl, trivial, fun hne => absurd rfl hne⟩
      · cases ht
  · cases hflight
    exact ⟨Task.mk .reconcile .acquire none, by simp, TaskPoint.noConfusion⟩

theorem calm_callStep (h : Calm s) {call : DriveCall} (hc : s.calls[c]? = some call)
    (hstep : s.callStep c call = some s') : Calm s' := by
  rw [callStep] at hstep
  split at hstep
  · next visible hpoint =>
    have hsignal := steady_signalDependencyChange h visible
    split at hstep
    · next x hx =>
      rw [hx] at hsignal
      cases hstep
      exact (hsignal.calm h).modifyCall (hsignal.calls ▸ hc) _ rfl
    · next x hx =>
      rw [hx] at hsignal
      cases hstep
      exact (hsignal.calm h).modifyCall (hsignal.calls ▸ hc) _ rfl
  · cases hstep
    rw [joinOrStart]
    split
    · exact h.modifyCall hc _ rfl
    · have hrequest : requestOf call.kind = .reconcile := by
        cases hkind : call.kind with
        | dispose => exact absurd hkind (h.calls c call hc)
        | _ => rfl
      rw [hrequest]
      exact h.start.modifyCall hc _ rfl
  · split at hstep
    · cases hstep
      exact h.modifyCall hc _ rfl
    · cases hstep
      exact h.modifyCall hc _ rfl
    · cases hstep
  · cases hstep
    exact h.modifyCall hc _ rfl
  · cases hstep
  · cases hstep

theorem Calm.called (h : Calm s) {kind : CallKind} (hkind : kind ≠ .dispose) (point : CallPoint) :
    Calm (s.called kind point) := by
  refine ⟨h.requested, h.state, h.tasks, h.flight, fun c call hc => ?_⟩
  rw [FiberHandle.called, List.getElem?_append] at hc
  split at hc
  · exact h.calls c call hc
  · rw [List.getElem?_singleton] at hc
    split at hc
    · cases hc
      exact hkind
    · cases hc

theorem calm_step {event : HandleEvent} (hsound : Sound s) (h : Calm s) (hmild : Mild event)
    (hstep : s.step event = some s') : Calm s' := by
  cases event with
  | setVisible visible =>
    cases hstep
    exact ⟨h.requested, h.state, h.tasks, h.flight, h.calls⟩
  | reconcile =>
    cases hstep
    exact h.called CallKind.noConfusion _
  | dependenciesChanged =>
    cases hstep
    exact h.called CallKind.noConfusion _
  | dispose => exact hmild.elim
  | call c =>
    rw [step] at hstep
    split at hstep
    · next call hc => exact calm_callStep h hc hstep
    · cases hstep
  | task t =>
    rw [step] at hstep
    split at hstep
    · next task ht => exact calm_taskStep hsound h ht hstep
    · cases hstep
  | initialized t outcome =>
    rw [step] at hstep
    split at hstep
    · next task ht => exact calm_initializerStep h hmild ht hstep
    · cases hstep
  | cleaned t failed =>
    rw [step] at hstep
    split at hstep
    · next task ht => exact calm_cleanupStep h ht hstep
    · cases hstep

/-! ## Receptive fibers -/

/-- The generation that loads may still become active: it was not closed. -/
def Live (s : FiberHandle) (generation : Nat) : Prop :=
  s.loadingGenerationIsLive generation = true ∧ ∀ g, s.current = some g → g.cancelled = false

/-- The places from which a task makes the fiber active, or has left it so,
once every dependency is visible. -/
def Ready (s : FiberHandle) : TaskPoint → Prop
  | .acquire | .enter | .dispatch | .guardPending | .samplePending | .guardActive | .sampleActive | .loading => True
  | .initializing generation | .committing generation | .commit generation true => s.Live generation
  | .publishing _ | .clearing => s.state = .active
  | .finished => True
  | _ => False

/-- Nothing has turned against the fiber: it was not invalidated, no call is
about to signal a loss it has seen, and the transition in flight, if any,
still leads to an active fiber. -/
structure Receptive (s : FiberHandle) : Prop where
  valid : s.state = .active → s.dependencyInvalidated = false
  fresh : ∀ (c : Nat) (call : DriveCall), s.calls[c]? = some call → call.point ≠ .sampled false
  ready : ∀ (t : Nat) (task : Task), s.inFlight = some t → s.tasks[t]? = some task → s.Ready task.point

/-- What the place of the call says. -/
def Followed (s : FiberHandle) : CallPoint → Prop
  | .sampled _ | .joining => True
  | .waiting t => s.inFlight = some t ∨ s.state = .active
  | .checking | .returned _ | .panicked _ => s.state = .active

/-- The call is being followed. -/
structure Follows (c : Nat) (s : FiberHandle) : Prop extends Receptive s where
  visible : s.visible = true
  followed : ∃ call, s.calls[c]? = some call ∧ call.kind = .reconcile ∧ s.Followed call.point

/-- A change of the lifecycle in favour of the call. -/
structure Favours (s x : FiberHandle) : Prop where
  valid : x.state = .active → x.dependencyInvalidated = false
  keeps : s.state = .active → x.state = .active
  tasks : x.tasks = s.tasks
  inFlight : x.inFlight = s.inFlight
  calls : x.calls = s.calls
  visible : x.visible = s.visible

theorem Receptive.favours (h : Receptive s) : Favours s s := ⟨h.valid, id, rfl, rfl, rfl, rfl⟩

theorem Followed.mono (x : FiberHandle) (hkeeps : s.state = .active → x.state = .active)
    (hflight : ∀ t, s.inFlight = some t → x.inFlight = some t ∨ x.state = .active) {point : CallPoint}
    (h : s.Followed point) : x.Followed point := by
  cases point with
  | sampled visible => trivial
  | joining => trivial
  | waiting t =>
    rcases h with hwaiting | hactive
    · exact hflight t hwaiting
    · exact .inr (hkeeps hactive)
  | checking => exact hkeeps h
  | returned error => exact hkeeps h
  | panicked panic => exact hkeeps h

/-- The task in flight goes on. -/
theorem Follows.modifyTask (h : Follows c s) (hx : Favours s x) (ht : s.tasks[t]? = some task)
    (hflight : s.inFlight = some t) (f : Task → Task) (hready : x.Ready (f task).point) :
    Follows c { x with tasks := x.tasks.modify t f } := by
  obtain ⟨call, hc, hkind, hfollowed⟩ := h.followed
  refine ⟨⟨hx.valid, fun c call hc => h.fresh c call (hx.calls ▸ hc), fun t' task' hflight' ht' => ?_⟩,
    hx.visible.trans h.visible, call, ?_, hkind, ?_⟩
  · have hsame : t = t' := Option.some.inj ((hflight.symm.trans hx.inFlight.symm).trans hflight')
    subst hsame
    change (x.tasks.modify t f)[t]? = some task' at ht'
    rw [hx.tasks, List.getElem?_modify, ht] at ht'
    have htask : f task = task' := by simpa using ht'
    exact htask ▸ hready
  · exact hx.calls.symm ▸ hc
  · exact hfollowed.mono _ hx.keeps fun t' hwaiting => .inl (hx.inFlight.trans hwaiting)

theorem Follows.goTo (h : Follows c s) (hx : Favours s x) (ht : s.tasks[t]? = some task)
    (hflight : s.inFlight = some t) {point : TaskPoint} (hready : x.Ready point) : Follows c (x.goTo t point) :=
      h.modifyTask hx ht hflight _ hready

theorem Follows.setLocked (h : Follows c s) (locked : Option Nat) : Follows c { s with locked } :=
  ⟨⟨h.valid, h.fresh, h.ready⟩, h.visible, h.followed⟩

theorem Follows.complete (h : Follows c s) (hx : Favours s x) (ht : s.tasks[t]? = some task)
    (hflight : s.inFlight = some t) {outcome : TransitionOutcome} (hactive : x.state = .active) :
    Follows c (x.complete t outcome) := by
  have hpublishing : Follows c (x.goTo t (.publishing outcome)) := h.goTo hx ht hflight hactive
  exact hpublishing.setLocked none

theorem follows_load (h : Follows c s) (hcalm : Calm s) (ht : s.tasks[t]? = some task)
    (hflight : s.inFlight = some t) (hpending : s.state = .pending) : Follows c (s.load t) := by
  have hload : s.newGeneration.transitionTo .loading =
      { s.newGeneration with state := .loading, trace := s.trace ++ [.loading] } := by
    rw [FiberHandle.transitionTo, if_neg (show s.newGeneration.state ≠ .loading by simp [newGeneration, hpending])]
    rfl
  have hx : Favours s (s.newGeneration.transitionTo .loading) := by
    rw [hload]
    exact ⟨fun _ => rfl, fun hactive => absurd (hpending.symm.trans hactive) FiberState.noConfusion, rfl, rfl, rfl, rfl⟩
  have hlive : (s.newGeneration.transitionTo .loading).Live (s.generation + 1) := by
    rw [hload]
    refine ⟨by simp [loadingGenerationIsLive, newGeneration, hcalm.requested], fun g hg => ?_⟩
    cases hg
    rfl
  rw [FiberHandle.load, if_neg (by simp [hpending]), if_neg (by simp [hcalm.requested])]
  exact h.goTo hx ht hflight hlive

theorem follows_tryCommitActive (h : Follows c s) {generation : Nat} (ht : s.tasks[t]? = some task)
    (hflight : s.inFlight = some t) (hlive : s.Live generation) : Follows c (s.tryCommitActive t generation true) := by
  obtain ⟨⟨⟨⟨hloading, -⟩, -⟩, hvalid⟩, -⟩ :
      (((s.state = .loading ∧ s.generation = generation) ∧ s.disposeRequested = false) ∧
        s.dependencyInvalidated = false) ∧ ∀ g, s.current = some g → g.cancelled = false := by
    simpa [Live, loadingGenerationIsLive] using hlive
  have hcommit : s.transitionTo .active = { s with state := .active, trace := s.trace ++ [.active] } := by
    rw [FiberHandle.transitionTo, if_neg (by simp [hloading])]
  have hx : Favours s (s.transitionTo .active) := by
    rw [hcommit]
    exact ⟨fun _ => hvalid, fun _ => rfl, rfl, rfl, rfl, rfl⟩
  rw [FiberHandle.tryCommitActive, if_pos rfl, if_pos hlive.1]
  exact h.complete hx ht hflight (state_transitionTo s .active)

/-- The transition is over: it has left the fiber active. -/
theorem Follows.clear (h : Follows c s) (hactive : s.state = .active) (t : Nat) :
    Follows c { s.goTo t .finished with inFlight := none } := by
  obtain ⟨call, hc, hkind, hfollowed⟩ := h.followed
  refine ⟨⟨h.valid, h.fresh, fun _ _ hflight _ => ?_⟩, h.visible, call, hc, hkind, ?_⟩
  · cases hflight
  refine hfollowed.mono _ ?_ ?_
  · exact fun _ => hactive
  · exact fun _ _ => .inr hactive

/-- No step of the transition in flight turns against the fiber. -/
theorem follows_taskStep (hsound : Sound s) (hcalm : Calm s) (h : Follows c s) (ht : s.tasks[t]? = some task)
    (hstep : s.taskStep t task = some s') : Follows c s' := by
  have hfits := hsound.fits t task ht
  by_cases hfinished : task.point = .finished
  · simp [taskStep, hfinished] at hstep
  have hflight := hsound.single t task ht hfinished
  have hready := h.ready t task hflight ht
  have hmove {point : TaskPoint} (hready : s.Ready point) : Follows c (s.goTo t point) :=
    h.goTo h.favours ht hflight hready
  have hdone {outcome : TransitionOutcome} (hactive : s.state = .active) : Follows c (s.complete t outcome) :=
    h.complete h.favours ht hflight hactive
  have hrequest := (hcalm.tasks t task ht).request
  cases hpoint : task.point
  all_goals rw [hpoint] at hfits hready
  all_goals simp only [taskStep, hpoint, hrequest, Option.some.injEq, reduceCtorEq, if_false] at hstep
  case acquire =>
    split at hstep
    · cases hstep
      have henter : Follows c (s.goTo t .enter) := hmove trivial
      exact henter.setLocked (some t)
    · cases hstep
  case enter =>
    simp only [hcalm.requested, Bool.false_eq_true, if_false] at hstep
    exact hstep ▸ hmove trivial
  case dispatch =>
    obtain ⟨hloading, hunloading⟩ := hfits
    obtain ⟨hfailed, hdisposed⟩ := hcalm.state
    cases hstate : s.state with
    | pending =>
      rw [hstate] at hstep
      cases hstep
      exact hmove trivial
    | active =>
      rw [hstate] at hstep
      cases hstep
      exact hmove trivial
    | loading => exact absurd hstate hloading
    | unloading => exact absurd hstate hunloading
    | failed => exact absurd hstate hfailed
    | disposed => exact absurd hstate hdisposed
  case guardPending =>
    simp only [hcalm.requested, Bool.false_eq_true, if_false] at hstep
    exact hstep ▸ hmove trivial
  case samplePending =>
    rw [if_pos h.visible] at hstep
    exact hstep ▸ hmove trivial
  case guardActive =>
    rw [if_neg (by simp [h.valid hfits])] at hstep
    exact hstep ▸ hmove trivial
  case sampleActive =>
    rw [if_pos h.visible] at hstep
    exact hstep ▸ hdone hfits
  case loading => exact hstep ▸ follows_load h hcalm ht hflight hfits
  case committing =>
    rw [h.visible] at hstep
    exact hstep ▸ hmove hready
  case commit generation visible =>
    cases visible with
    | true => exact hstep ▸ follows_tryCommitActive h ht hflight hready
    | false => exact hready.elim
  case publishing => exact hstep ▸ h.modifyTask h.favours ht hflight _ hready
  case clearing =>
    rw [if_pos hflight] at hstep
    exact hstep ▸ h.clear hready t
  all_goals exact hready.elim

theorem follows_initializerStep (hsound : Sound s) (h : Follows c s) {outcome : InitializerOutcome}
    (hmild : outcome = .succeeded ∨ outcome = .cancelled) (ht : s.tasks[t]? = some task)
    (hstep : s.initializerStep t task outcome = some s') : Follows c s' := by
  rw [initializerStep] at hstep
  split at hstep
  · next generation hpoint =>
    have hflight := hsound.single t task ht (by simp [hpoint])
    have hready := h.ready t task hflight ht
    rw [hpoint] at hready
    rcases hmild with rfl | rfl
    · cases hstep
      exact h.goTo h.favours ht hflight hready
    · simp only at hstep
      split at hstep
      · next g hcurrent =>
        split at hstep
        · next hcancelled =>
          rw [hready.2 g hcurrent] at hcancelled
          cases hcancelled.2
        · cases hstep
      · cases hstep
  · cases hstep

theorem follows_cleanupStep (hsound : Sound s) (h : Follows c s) {failed : Bool} (ht : s.tasks[t]? = some task)
    (hstep : s.cleanupStep t task failed = some s') : Follows c s' := by
  rw [cleanupStep] at hstep
  split at hstep
  · next finish hpoint =>
    have hready := h.ready t task (hsound.single t task ht (by simp [hpoint])) ht
    rw [hpoint] at hready
    exact hready.elim
  · next hpoint =>
    have hready := h.ready t task (hsound.single t task ht (by simp [hpoint])) ht
    rw [hpoint] at hready
    exact hready.elim
  · cases hstep

/-! ## Calls -/

/-- A call goes on: the one that is followed to a place that is followed, and
none to a signal of a loss. -/
theorem Follows.modifyCall (h : Follows c s) {c' : Nat} {call : DriveCall} (hc' : s.calls[c']? = some call)
    (f : DriveCall → DriveCall) (hkind : (f call).kind = call.kind) (hfresh : (f call).point ≠ .sampled false)
    (hfollowed : call.kind = .reconcile → s.Followed call.point → s.Followed (f call).point) :
    Follows c { s with calls := s.calls.modify c' f } := by
  obtain ⟨own, hown, hreconcile, hplace⟩ := h.followed
  refine ⟨⟨h.valid, fun c₀ call₀ hc₀ => ?_, h.ready⟩, h.visible, ?_⟩
  · rw [List.getElem?_modify] at hc₀
    by_cases heq : c' = c₀
    · subst heq
      rw [hc'] at hc₀
      have hcall : f call = call₀ := by simpa using hc₀
      exact hcall ▸ hfresh
    · exact h.fresh c₀ call₀ (by simpa [heq] using hc₀)
  · by_cases heq : c' = c
    · subst heq
      rw [hc'] at hown
      cases hown
      exact ⟨f call, by simp [hc'], hkind.trans hreconcile, hfollowed hreconcile hplace⟩
    · exact ⟨own, by simpa [List.getElem?_modify, heq] using hown, hreconcile, hplace⟩

/-- A new transition, while none is in flight. -/
theorem Follows.start (h : Follows c s) (hnone : s.inFlight = none) :
    Follows c { s with tasks := s.tasks ++ [Task.mk .reconcile .acquire none], inFlight := some s.tasks.length } := by
  obtain ⟨own, hown, hkind, hplace⟩ := h.followed
  refine ⟨⟨h.valid, h.fresh, fun t task hflight ht => ?_⟩, h.visible, own, hown, hkind, ?_⟩
  · cases hflight
    have htask : Task.mk .reconcile .acquire none = task := by simpa using ht
    exact htask ▸ trivial
  · refine hplace.mono _ ?_ ?_
    · exact fun hactive => hactive
    · intro t hwaiting
      rw [hnone] at hwaiting
      cases hwaiting

/-- A transition whose outcome is published has left the fiber active. -/
theorem active_of_outcome (hcalm : Calm s) (h : Follows c s) (ht : s.tasks[t]? = some task)
    (houtcome : task.outcome ≠ none) (hwaiting : s.inFlight = some t ∨ s.state = .active) : s.state = .active := by
  rcases hwaiting with hflight | hactive
  · obtain ⟨task', ht', hunfinished⟩ := hcalm.flight t hflight
    rw [ht] at ht'
    cases ht'
    have hready := h.ready t task hflight ht
    rcases (hcalm.tasks t task ht).outcome houtcome with hclearing | hfinished
    · rw [hclearing] at hready
      exact hready
    · exact absurd hfinished hunfinished
  · exact hactive

theorem follows_callStep (hcalm : Calm s) (h : Follows c s) {c' : Nat} {call : DriveCall}
    (hc' : s.calls[c']? = some call) (hstep : s.callStep c' call = some s') : Follows c s' := by
  rw [callStep] at hstep
  split at hstep
  · next visible hpoint =>
    have hvisible : visible = true := by
      by_contra hfalse
      rw [Bool.not_eq_true] at hfalse
      exact h.fresh c' call hc' (hfalse ▸ hpoint)
    subst hvisible
    simp only [FiberHandle.signalDependencyChange, if_true, Option.some.injEq] at hstep
    rw [← hstep]
    refine h.modifyCall hc' _ rfl ?_ fun hkind _ => ?_
    · simp only
      split
      · exact CallPoint.noConfusion
      · rw [subscribe]
        split <;> exact CallPoint.noConfusion
    · simp only [hkind, reduceCtorEq, if_false]
      rw [subscribe]
      split
      · next t hflight => exact .inl hflight
      · trivial
  · cases hstep
    rw [joinOrStart]
    split
    · next t hflight => exact h.modifyCall hc' _ rfl CallPoint.noConfusion fun _ _ => .inl hflight
    · next hnone =>
      have hrequest : requestOf call.kind = .reconcile := by
        cases hkind : call.kind with
        | dispose => exact absurd hkind (hcalm.calls c' call hc')
        | _ => rfl
      rw [hrequest]
      exact (h.start hnone).modifyCall hc' _ rfl CallPoint.noConfusion fun _ _ => .inl rfl
  · next t hpoint =>
    split at hstep
    · next ht =>
      cases hstep
      refine h.modifyCall hc' _ rfl CallPoint.noConfusion fun _ hwaiting => ?_
      rw [hpoint] at hwaiting
      exact active_of_outcome hcalm h ht (by simp) hwaiting
    · next ht =>
      cases hstep
      refine h.modifyCall hc' _ rfl CallPoint.noConfusion fun _ hwaiting => ?_
      rw [hpoint] at hwaiting
      exact active_of_outcome hcalm h ht (by simp) hwaiting
    · cases hstep
  · next hpoint =>
    cases hstep
    refine h.modifyCall hc' _ rfl ?_ fun _ hactive => ?_
    · simp only
      split <;> exact CallPoint.noConfusion
    · rw [hpoint] at hactive
      simp only
      split
      · trivial
      · exact hactive
  · cases hstep
  · cases hstep

/-- A new call does not disturb the one that is followed. -/
theorem Follows.called (h : Follows c s) {kind : CallKind} {point : CallPoint} (hfresh : point ≠ .sampled false) :
    Follows c (s.called kind point) := by
  obtain ⟨own, hown, hkind, hplace⟩ := h.followed
  refine ⟨⟨h.valid, fun c' call hc' => ?_, h.ready⟩, h.visible, own, ?_, hkind, hplace⟩
  · rw [FiberHandle.called, List.getElem?_append] at hc'
    split at hc'
    · exact h.fresh c' call hc'
    · rw [List.getElem?_singleton] at hc'
      split at hc'
      · cases hc'
        exact hfresh
      · cases hc'
  · rw [FiberHandle.called, List.getElem?_append_left (List.getElem?_eq_some_iff.mp hown).1]
    exact hown

/-- The call itself. -/
theorem Receptive.follows (h : Receptive s) (hvisible : s.visible = true) :
    Follows s.calls.length (s.called .reconcile (.sampled s.visible)) := by
  refine ⟨⟨h.valid, fun c call hc => ?_, h.ready⟩, hvisible, ⟨.reconcile, .sampled s.visible, none⟩, ?_, rfl, trivial⟩
  · rw [FiberHandle.called, List.getElem?_append] at hc
    split at hc
    · exact h.fresh c call hc
    · rw [List.getElem?_singleton] at hc
      split at hc
      · cases hc
        simp [hvisible]
      · cases hc
  · simp [FiberHandle.called]

/-- The dependencies stay visible. -/
def Stays : HandleEvent → Prop
  | .setVisible visible => visible = true
  | _ => True

theorem follows_step {event : HandleEvent} (hsound : Sound s) (hcalm : Calm s) (h : Follows c s)
    (hmild : Mild event) (hstays : Stays event) (hstep : s.step event = some s') : Follows c s' := by
  cases event with
  | setVisible visible =>
    cases hstep
    exact ⟨⟨h.valid, h.fresh, h.ready⟩, hstays, h.followed⟩
  | reconcile =>
    cases hstep
    exact h.called (by simp [h.visible])
  | dependenciesChanged =>
    cases hstep
    exact h.called (by simp [h.visible])
  | dispose => exact hmild.elim
  | call c' =>
    rw [step] at hstep
    split at hstep
    · next call hc' => exact follows_callStep hcalm h hc' hstep
    · cases hstep
  | task t =>
    rw [step] at hstep
    split at hstep
    · next task ht => exact follows_taskStep hsound hcalm h ht hstep
    · cases hstep
  | initialized t outcome =>
    rw [step] at hstep
    split at hstep
    · next task ht => exact follows_initializerStep hsound h hmild ht hstep
    · cases hstep
  | cleaned t failed =>
    rw [step] at hstep
    split at hstep
    · next task ht => exact follows_cleanupStep hsound h ht hstep
    · cases hstep

/-- A `reconcile` that a receptive fiber is called with, all of whose
dependencies are visible until it returns, returns with the fiber active. -/
theorem reconcile_followed {before after : List HandleEvent} {s s' : FiberHandle}
    (hbefore : ∀ event ∈ before, Mild event) (hrun : Transition.run step {} before = some s)
    (hvisible : s.visible = true) (hreceptive : s.Receptive)
    (hafter : ∀ event ∈ after, Mild event ∧ Stays event)
    (hrest : Transition.run step s (.reconcile :: after) = some s') :
    ∃ call, s'.calls[s.calls.length]? = some call ∧
      ∀ error, call.point = .returned error → s'.state = .active := by
  have hsound := sound_run hrun
  have hstart : Sound {} ∧ Calm {} := ⟨sound_initial, calm_initial⟩
  have hcalm : Sound s ∧ Calm s :=
    Transition.run_preserves_of_forall (P := Mild)
      (fun x _ x' (h : Sound x ∧ Calm x) hmild hstep =>
        (⟨sound_step h.1 hstep, calm_step h.1 h.2 hmild hstep⟩ : Sound x' ∧ Calm x')) hrun hbefore hstart
  obtain ⟨x, hcalled, hrest⟩ := Transition.run_cons.mp hrest
  have hfirst : Sound x ∧ Calm x ∧ Follows s.calls.length x := by
    have hmild : Mild .reconcile := trivial
    refine ⟨sound_step hsound hcalled, calm_step hsound hcalm.2 hmild hcalled, ?_⟩
    cases hcalled
    exact hreceptive.follows hvisible
  obtain ⟨-, -, hfollows⟩ :=
    Transition.run_preserves_of_forall (P := fun event => Mild event ∧ Stays event)
      (fun y _ y' (h : Sound y ∧ Calm y ∧ Follows s.calls.length y) hevent hstep =>
        (⟨sound_step h.1 hstep, calm_step h.1 h.2.1 hevent.1 hstep,
          follows_step h.1 h.2.1 h.2.2 hevent.1 hevent.2 hstep⟩ : Sound y' ∧ Calm y' ∧ Follows s.calls.length y'))
      hrest hafter hfirst
  obtain ⟨call, hc, -, hfollowed⟩ := hfollows.followed
  refine ⟨call, hc, fun error hreturned => ?_⟩
  rw [hreturned] at hfollowed
  exact hfollowed

/-- A fiber whose initializer is running. -/
def loadUnderWay : List HandleEvent :=
  [.setVisible true, .reconcile, .call 0, .call 0, .task 0, .task 0, .task 0, .task 0, .task 0, .task 0]

/-- The load that a second call has joined is finished. -/
def joinedLoad : List HandleEvent :=
  [.call 1, .initialized 0 .succeeded, .task 0, .task 0, .task 0, .call 1, .call 1]

/-- That fiber. -/
def loadingFiber : FiberHandle where
  state := .loading
  generation := 1
  current := some { id := 1, store := 0 }
  inFlight := some 0
  locked := some 0
  trace := [.pending, .loading]
  tasks := [{ request := .reconcile, point := .initializing 1 }]
  calls := [{ kind := .reconcile, point := .waiting 0 }]
  stores := [true]
  visible := true

theorem receptive_loadingFiber : loadingFiber.Receptive where
  valid := by simp [loadingFiber]
  fresh := by simp [loadingFiber, List.getElem?_singleton]
  ready := by
    intro t task hflight ht
    cases hflight
    cases ht
    simp [Ready, Live, loadingGenerationIsLive, loadingFiber]

theorem reconcile_followed_by_joined_load :
    ∃ s', Transition.run step {} loadUnderWay = some loadingFiber ∧
      Transition.run step loadingFiber (.reconcile :: joinedLoad) = some s' ∧
      s'.calls[1]? = some { kind := .reconcile, point := .returned none } ∧ s'.state = .active := by
  have hbefore : Transition.run step {} loadUnderWay = some loadingFiber := by decide
  refine ⟨_, hbefore, rfl, rfl, ?_⟩
  have hmild : ∀ event ∈ loadUnderWay, Mild event := by simp [loadUnderWay, Mild]
  have hstays : ∀ event ∈ joinedLoad, Mild event ∧ Stays event := by simp [joinedLoad, Mild, Stays]
  obtain ⟨call, hc, hactive⟩ := reconcile_followed hmild hbefore rfl receptive_loadingFiber hstays rfl
  have hcall : call = { kind := .reconcile, point := .returned none } := Option.some.inj (hc.symm.trans rfl)
  exact hactive none (hcall ▸ rfl)

/-- A fiber that became active and lost a dependency, which is back. -/
def lostAndBack : List HandleEvent :=
  [.setVisible true, .reconcile, .call 0, .call 0, .task 0, .task 0, .task 0, .task 0, .task 0, .task 0,
    .initialized 0 .succeeded, .task 0, .task 0, .task 0, .task 0, .call 0, .call 0,
    .setVisible false, .reconcile, .call 1, .setVisible true]

/-- A call that finds the loss has the fiber unloaded. -/
def unloadedAfterLoss : List HandleEvent :=
  [.call 2, .call 2, .task 1, .task 1, .task 1, .task 1, .task 1, .cleaned 1 false, .task 1, .task 1, .call 2, .call 2]

/-- The loss of a dependency is not forgotten when it comes back. -/
theorem reconcile_not_followed_after_loss :
    ∃ s s', (∀ event ∈ lostAndBack ++ unloadedAfterLoss, Mild event) ∧ (∀ event ∈ unloadedAfterLoss, Stays event) ∧
      Transition.run step {} lostAndBack = some s ∧ s.visible = true ∧ s.calls.length = 2 ∧
      Transition.run step s (.reconcile :: unloadedAfterLoss) = some s' ∧
      s'.calls[2]? = some { kind := .reconcile, point := .returned none } ∧ s'.state = .pending :=
  ⟨_, _, by simp [lostAndBack, unloadedAfterLoss, Mild], by simp [unloadedAfterLoss, Stays], rfl, rfl, rfl, rfl,
    rfl, rfl⟩

end FiberHandle

end MinionAgent.Rust
