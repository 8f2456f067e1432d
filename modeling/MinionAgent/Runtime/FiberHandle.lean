import MinionAgent.Library.Transition
import MinionAgent.Runtime.Fiber

/-!
# MinionAgent.Runtime.FiberHandle

The Rust fiber (`runtime/fiber.rs`).  Its lifecycle is behind a mutex, which
callers and the task of the transition in flight take for a moment at a time;
in between, everything else may happen.

* `TaskPoint`, `CallPoint` — where a task of `join_or_start_transition`, and a
  call of `reconcile`, `dispose` or `dependencies_changed`, has got to;
* `FiberHandle.step` — what happens from one such point to the next: one
  section of the lifecycle lock, one look at the dependencies, or one `await`.

Disposers and observers are taken not to panic; the initializer may.
-/

namespace MinionAgent.Rust

/-- `Generation`: the number of its effect store, and whether its token was
cancelled. -/
structure Generation where
  id : Nat
  store : Nat
  cancelled : Bool := false
deriving DecidableEq

/-- `LifecycleRequest`. -/
inductive LifecycleRequest
  | reconcile | dispose
deriving DecidableEq

/-- `FiberError`. -/
inductive FiberError
  | initialization | cleanup | initializationAndCleanup
deriving DecidableEq

/-- What a transition or a call can panic with: the payload of the
initializer, or one of the messages and assertions of `fiber.rs`. -/
inductive Panic
  | initializer
  | inFlightState
  | generationDisappeared
  | noOwnedGeneration
  | lostRequest
  | noInitializationError
  | assertPending
  | assertActive
  | assertNotDisposed
deriving DecidableEq

/-- `TransitionOutcome`. -/
inductive TransitionOutcome
  | completed (error : Option FiberError)
  | panicked (panic : Panic)
deriving DecidableEq

/-- The arguments of `finish_loading_cleanup`, and whether
`finish_panicked_loading` called it. -/
structure Finish where
  generation : Nat
  target : FiberState
  initialization : Bool := false
  panicked : Bool := false
deriving DecidableEq

/-- What the task of a transition does next. -/
inductive TaskPoint
  /-- `run_serialized_transition`: the transition lock, then one look at the
  lifecycle or the dependencies after the other. -/
  | acquire | enter | dispatch | guardPending | samplePending | guardActive | sampleActive
  /-- `dispose_serialized`: the state, then the section that settles it. -/
  | disposing | retire
  /-- `load`: its first section, the initializer, and what it comes to. -/
  | loading
  | initializing (generation : Nat)
  | committing (generation : Nat)
  | commit (generation : Nat) (visible : Bool)
  | judging (generation : Nat)
  /-- `finish_loading_cleanup`. -/
  | closing (finish : Finish)
  | cleaning (finish : Finish)
  | settling (finish : Finish) (cleanupFailed : Bool)
  /-- `unload`. -/
  | unloading (disposing : Bool)
  | unwinding
  | settlingUnload (cleanupFailed : Bool)
  /-- The end of the spawned task: the transition lock is free. -/
  | publishing (outcome : TransitionOutcome)
  | clearing
  | finished
deriving DecidableEq

/-- The task of one transition, with the channel of its outcome. -/
structure Task where
  request : LifecycleRequest
  point : TaskPoint := .acquire
  outcome : Option TransitionOutcome := none
deriving DecidableEq

/-- What a call does next.  `sampled` is between the two statements of
`signal_dependency_change`; the others are in `drive_transition`. -/
inductive CallPoint
  | sampled (visible : Bool)
  | joining
  | waiting (transition : Nat)
  | checking
  | returned (error : Option FiberError)
  | panicked (panic : Panic)
deriving DecidableEq

/-- The methods of the handle. -/
inductive CallKind
  | reconcile | dispose | dependenciesChanged
deriving DecidableEq

/-- A call, with `prior_error`. -/
structure DriveCall where
  kind : CallKind
  point : CallPoint
  priorError : Option FiberError := none
deriving DecidableEq

/-- `InitializerOutcome`. -/
inductive InitializerOutcome
  | succeeded | failed | panicked | cancelled
deriving DecidableEq

/-- `FiberInner`: the lifecycle, the holder of the transition lock, the trace,
the tasks (the transition IDs count them), the calls, and for every effect
store whether it accepts effects.  `visible` is what `dependencies_visible`
answers; `lost` says that a disposal or a loss of dependencies was signalled
since the last load began. -/
structure FiberHandle where
  state : FiberState := .pending
  generation : Nat := 0
  current : Option Generation := none
  disposeRequested : Bool := false
  dependencyInvalidated : Bool := false
  inFlight : Option Nat := none
  locked : Option Nat := none
  trace : List FiberState := [.pending]
  tasks : List Task := []
  calls : List DriveCall := []
  stores : List Bool := []
  visible : Bool := false
  lost : Bool := false
deriving DecidableEq

/-- What happens next. -/
inductive HandleEvent
  | setVisible (visible : Bool)
  | reconcile
  | dependenciesChanged
  | dispose
  | call (call : Nat)
  | task (task : Nat)
  | initialized (task : Nat) (outcome : InitializerOutcome)
  | cleaned (task : Nat) (failed : Bool)
deriving DecidableEq

namespace FiberHandle

/-- `transition_to`. -/
def transitionTo (s : FiberHandle) (state : FiberState) : FiberHandle :=
  if s.state = state then s else { s with state, trace := s.trace ++ [state] }

/-- The task goes on from another point. -/
def goTo (s : FiberHandle) (t : Nat) (point : TaskPoint) : FiberHandle :=
  { s with tasks := s.tasks.modify t fun task => { task with point } }

/-- `run_serialized_transition` returns or unwinds, and drops its guard. -/
def complete (s : FiberHandle) (t : Nat) (outcome : TransitionOutcome) : FiberHandle :=
  { s.goTo t (.publishing outcome) with locked := none }

/-- The store of a generation is closed and its token cancelled. -/
def shut (s : FiberHandle) (g : Generation) : FiberHandle :=
  { s with current := some { g with cancelled := true }, stores := s.stores.set g.store false }

/-- What `close_current_generation` and `close_generation` do. -/
def closeGeneration (s : FiberHandle) (g : Generation) : FiberHandle :=
  { s.shut g with generation := if s.generation = g.id then s.generation + 1 else s.generation }

/-- `close_current_generation`, and whether it panics. -/
def closeCurrentGeneration (s : FiberHandle) : FiberHandle × Bool :=
  match s.current with
  | some g => (s.closeGeneration g, false)
  | none => (s, true)

/-- The condition under which a loading generation may become active or
failed. -/
def loadingGenerationIsLive (s : FiberHandle) (generation : Nat) : Bool :=
  s.state == .loading && s.generation == generation && !s.disposeRequested && !s.dependencyInvalidated

/-- `needs_follow_up_transition`. -/
def needsFollowUpTransition (s : FiberHandle) : Bool :=
  (s.disposeRequested && s.state != .disposed) || (s.dependencyInvalidated && s.state == .active)

/-- A new generation, with a store and a token of its own. -/
def newGeneration (s : FiberHandle) : FiberHandle :=
  { s with
    dependencyInvalidated := false
    lost := false
    generation := s.generation + 1
    current := some { id := s.generation + 1, store := s.stores.length }
    stores := s.stores ++ [true] }

/-- The first section of `load`. -/
def load (s : FiberHandle) (t : Nat) : FiberHandle :=
  if s.state ≠ .pending then
    s.complete t (.panicked .assertPending)
  else if s.disposeRequested then
    s.complete t (.panicked .assertNotDisposed)
  else
    (s.newGeneration.transitionTo .loading).goTo t (.initializing (s.generation + 1))

/-- `try_commit_active` after its look at the dependencies. -/
def tryCommitActive (s : FiberHandle) (t generation : Nat) (visible : Bool) : FiberHandle :=
  if visible then
    if s.loadingGenerationIsLive generation then
      (s.transitionTo .active).complete t (.completed none)
    else
      s.goTo t (.closing { generation, target := .pending })
  else if s.state = .loading then
    match { s with lost := true }.closeCurrentGeneration with
    | (s', false) => s'.goTo t (.closing { generation, target := .pending })
    | (s', true) => s'.complete t (.panicked .noOwnedGeneration)
  else
    s.goTo t (.closing { generation, target := .pending })

/-- `close_generation`. -/
def closeLoading (s : FiberHandle) (t : Nat) (finish : Finish) : FiberHandle :=
  match s.current with
  | some g =>
    if g.id = finish.generation then
      (s.closeGeneration g).goTo t (.cleaning finish)
    else
      s.complete t (.panicked .generationDisappeared)
  | none => s.complete t (.panicked .generationDisappeared)

/-- What `finish_loading_cleanup` and its caller return. -/
def finishOutcome (finish : Finish) (target : FiberState) (cleanupFailed : Bool) : TransitionOutcome :=
  if finish.panicked then
    .panicked .initializer
  else if target = .failed then
    if finish.initialization then
      .completed (some (if cleanupFailed then .initializationAndCleanup else .initialization))
    else
      .panicked .noInitializationError
  else
    .completed (if cleanupFailed then some .cleanup else none)

/-- A generation is not current any more. -/
def dropGeneration (s : FiberHandle) (generation : Nat) : FiberHandle :=
  { s with current := if s.current.map Generation.id = some generation then none else s.current }

/-- The state a cleanup ends in. -/
def targetOf (s : FiberHandle) (target : FiberState) : FiberState := if s.disposeRequested then .disposed else target

/-- The last section of `finish_loading_cleanup`. -/
def settleLoading (s : FiberHandle) (t : Nat) (finish : Finish) (cleanupFailed : Bool) : FiberHandle :=
  ((s.dropGeneration finish.generation).transitionTo (s.targetOf finish.target)).complete t
    (finishOutcome finish (s.targetOf finish.target) cleanupFailed)

/-- The current generation of an active fiber is given up. -/
def leaveGeneration (s : FiberHandle) (g : Generation) (disposing : Bool) : FiberHandle :=
  { s.shut g with
    disposeRequested := s.disposeRequested || disposing
    generation := s.generation + 1 }

/-- The first section of `unload`. -/
def unload (s : FiberHandle) (t : Nat) (disposing : Bool) : FiberHandle :=
  if s.state ≠ .active then
    s.complete t (.panicked .assertActive)
  else
    match s.current with
    | some g =>
      ((s.leaveGeneration g disposing).transitionTo .unloading).goTo t .unwinding
    | none => s.complete t (.panicked .noOwnedGeneration)

/-- The last section of `unload`. -/
def settleUnload (s : FiberHandle) (t : Nat) (cleanupFailed : Bool) : FiberHandle :=
  ({ s with current := none }.transitionTo (s.targetOf .pending)).complete t
    (.completed (if cleanupFailed then some .cleanup else none))

/-- One step of a task, apart from those that wait for the initializer or for
disposers. -/
def taskStep (s : FiberHandle) (t : Nat) (task : Task) : Option FiberHandle :=
  match task.point with
  | .acquire => if s.locked = none then some ({ s with locked := some t }.goTo t .enter) else none
  | .enter => some (s.goTo t (if s.disposeRequested then .disposing else .dispatch))
  | .dispatch =>
    if task.request = .dispose then
      some (s.complete t (.panicked .lostRequest))
    else
      match s.state with
      | .pending => some (s.goTo t .guardPending)
      | .active => some (s.goTo t .guardActive)
      | .failed | .disposed => some (s.complete t (.completed none))
      | .loading | .unloading => some (s.complete t (.panicked .inFlightState))
  | .guardPending => some (if s.disposeRequested then s.complete t (.completed none) else s.goTo t .samplePending)
  | .samplePending => some (if s.visible then s.goTo t .loading else s.complete t (.completed none))
  | .guardActive => some (s.goTo t (if s.dependencyInvalidated then .unloading false else .sampleActive))
  | .sampleActive => some (if s.visible then s.complete t (.completed none) else s.goTo t (.unloading false))
  | .disposing =>
    match s.state with
    | .pending | .failed => some (s.goTo t .retire)
    | .active => some (s.goTo t (.unloading true))
    | .disposed => some (s.complete t (.completed none))
    | .loading | .unloading => some (s.complete t (.panicked .inFlightState))
  | .retire => some (({ s with current := none }.transitionTo .disposed).complete t (.completed none))
  | .loading => some (s.load t)
  | .committing generation => some (s.goTo t (.commit generation s.visible))
  | .commit generation visible => some (s.tryCommitActive t generation visible)
  | .judging generation =>
    some (s.goTo t (.closing
      { generation
        target := if s.loadingGenerationIsLive generation then .failed else .pending
        initialization := s.loadingGenerationIsLive generation }))
  | .closing finish => some (s.closeLoading t finish)
  | .settling finish cleanupFailed => some (s.settleLoading t finish cleanupFailed)
  | .unloading disposing => some (s.unload t disposing)
  | .settlingUnload cleanupFailed => some (s.settleUnload t cleanupFailed)
  | .publishing outcome =>
    some { s with tasks := s.tasks.modify t fun task => { task with point := .clearing, outcome := some outcome } }
  | .clearing => some { s.goTo t .finished with inFlight := if s.inFlight = some t then none else s.inFlight }
  | .initializing _ | .cleaning _ | .unwinding | .finished => none

/-- What a task does once its initializer is done or was cancelled. -/
def initializerStep (s : FiberHandle) (t : Nat) (task : Task) (outcome : InitializerOutcome) : Option FiberHandle :=
  match task.point with
  | .initializing generation =>
    match outcome with
    | .succeeded => some (s.goTo t (.committing generation))
    | .failed => some (s.goTo t (.judging generation))
    | .panicked => some (s.goTo t (.closing { generation, target := .disposed, panicked := true }))
    | .cancelled =>
      match s.current with
      | some g =>
        if g.id = generation ∧ g.cancelled then
          some (s.goTo t (.closing { generation, target := .pending }))
        else
          none
      | none => none
  | _ => none

/-- What a task does once `close_and_dispose` has returned. -/
def cleanupStep (s : FiberHandle) (t : Nat) (task : Task) (failed : Bool) : Option FiberHandle :=
  match task.point with
  | .cleaning finish => some (s.goTo t (.settling finish failed))
  | .unwinding => some (s.goTo t (.settlingUnload failed))
  | _ => none

/-! ## Calls -/

/-- A call goes on from another point. -/
def callTo (s : FiberHandle) (c : Nat) (point : CallPoint) : FiberHandle :=
  { s with calls := s.calls.modify c fun call => { call with point } }

/-- `subscribe_locked`, and what its caller does next. -/
def subscribe (s : FiberHandle) : CallPoint :=
  match s.inFlight with
  | some t => .waiting t
  | none => .joining

/-- The section of `signal_dependency_change`, and whether it panics. -/
def signalDependencyChange (s : FiberHandle) (visible : Bool) : FiberHandle × Bool :=
  if visible then
    (s, false)
  else
    match s.state with
    | .active => { s with lost := true, dependencyInvalidated := true }.closeCurrentGeneration
    | .loading => { s with lost := true }.closeCurrentGeneration
    | .pending | .failed | .unloading | .disposed => ({ s with lost := true }, false)

/-- The section of `request_disposal`, and whether it panics. -/
def requestDisposal (s : FiberHandle) : FiberHandle × Bool :=
  match s.state with
  | .active | .loading => { s with lost := true, disposeRequested := true }.closeCurrentGeneration
  | .pending | .failed | .unloading | .disposed => ({ s with lost := true, disposeRequested := true }, false)

/-- A new call. -/
def called (s : FiberHandle) (kind : CallKind) (point : CallPoint) : FiberHandle :=
  { s with calls := s.calls ++ [{ kind, point }] }

/-- The request of a call. -/
def requestOf : CallKind → LifecycleRequest
  | .dispose => .dispose
  | _ => .reconcile

/-- `join_or_start_transition`. -/
def joinOrStart (s : FiberHandle) (c : Nat) (call : DriveCall) : FiberHandle :=
  match s.inFlight with
  | some t => s.callTo c (.waiting t)
  | none =>
    let task : Task := { request := requestOf call.kind }
    { s with tasks := s.tasks ++ [task], inFlight := some s.tasks.length }.callTo c (.waiting s.tasks.length)

/-- One step of a call. -/
def callStep (s : FiberHandle) (c : Nat) (call : DriveCall) : Option FiberHandle :=
  match call.point with
  | .sampled visible =>
    match s.signalDependencyChange visible with
    | (s', false) => some (s'.callTo c (if call.kind = .dependenciesChanged then .returned none else s'.subscribe))
    | (s', true) => some (s'.callTo c (.panicked .noOwnedGeneration))
  | .joining => some (s.joinOrStart c call)
  | .waiting t =>
    match s.tasks[t]? with
    | some { outcome := some (.completed error), .. } =>
      some { s with
        calls := s.calls.modify c fun call =>
          { call with point := .checking, priorError := error <|> call.priorError } }
    | some { outcome := some (.panicked panic), .. } => some (s.callTo c (.panicked panic))
    | _ => none
  | .checking => some (s.callTo c (if s.needsFollowUpTransition then .joining else .returned call.priorError))
  | .returned _ | .panicked _ => none

/-- One step; `none` where the event cannot happen. -/
def step (s : FiberHandle) : HandleEvent → Option FiberHandle
  | .setVisible visible => some { s with visible }
  | .reconcile => some (s.called .reconcile (.sampled s.visible))
  | .dependenciesChanged => some (s.called .dependenciesChanged (.sampled s.visible))
  | .dispose =>
    match s.requestDisposal with
    | (s', false) => some (s'.called .dispose s'.subscribe)
    | (s', true) => some (s'.called .dispose (.panicked .noOwnedGeneration))
  | .call c =>
    match s.calls[c]? with
    | some call => s.callStep c call
    | none => none
  | .task t =>
    match s.tasks[t]? with
    | some task => s.taskStep t task
    | none => none
  | .initialized t outcome =>
    match s.tasks[t]? with
    | some task => s.initializerStep t task outcome
    | none => none
  | .cleaned t failed =>
    match s.tasks[t]? with
    | some task => s.cleanupStep t task failed
    | none => none

end FiberHandle

end MinionAgent.Rust
