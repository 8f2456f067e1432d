import Mathlib.Logic.Function.Basic
import MinionAgent.Runtime.Fiber

/-!
# MinionAgent.Runtime.Registry

The Python plugin registry (`runtime/registry.py`) with the services of its
plugins (`runtime/service.py`, `Context.provide`).  A body provides its
services one after another; withdrawing a service reconciles, so that
`reconcile` calls itself from inside the disposers of a fiber.

* `reconcileWith` — `reconcile`, to a depth of calls;
* `PluginRegistry.step` — one call of a method, to its end.
-/

namespace MinionAgent

/-- `PluginSpec`, with the services that its body provides. -/
structure PluginSpec where
  inject : List String
  provides : List String
deriving DecidableEq

/-- A fiber of the registry: the services in its `_disposables`, and whether it
is in `_fibers`. -/
structure PluginFiber where
  plugin : PluginSpec := ⟨[], []⟩
  state : FiberState := .disposed
  provided : List String := []
  mounted : Bool := false

/-- `PluginRegistry` and the `ServiceRegistry` of its root.  Fibers are numbered
as they are mounted, and `_impls` has the owner of every name. -/
structure PluginRegistry where
  count : Nat := 0
  fibers : Nat → PluginFiber := fun _ => {}
  impls : String → Option Nat := fun _ => none

/-- The exceptions of `reconcile`: `RuntimeError_("plugin reconciliation did not
stabilize; check for a dependency cycle")`, and the group that `dispose_all`
raises. -/
inductive ReconcileError
  | unstable
  | disposing (failures : List ReconcileError)

/-- `_MAX_PASSES`. -/
def maxPasses : Nat := 100

namespace PluginRegistry

/-- What a call of a method leaves, with the exception it raises. -/
abbrev Outcome := PluginRegistry × Option ReconcileError

/-- `Fiber.state`. -/
def state (r : PluginRegistry) (i : Nat) : FiberState := (r.fibers i).state

/-- `Fiber.plugin`. -/
def plugin (r : PluginRegistry) (i : Nat) : PluginSpec := (r.fibers i).plugin

/-- The services in the `_disposables` of a fiber. -/
def provided (r : PluginRegistry) (i : Nat) : List String := (r.fibers i).provided

/-- A fiber is in `_fibers`. -/
def mounted (r : PluginRegistry) (i : Nat) : Bool := (r.fibers i).mounted

/-- `list(self._fibers)`. -/
def mountedFibers (r : PluginRegistry) : List Nat := (List.range r.count).filter r.mounted

/-- A fiber changes. -/
def modify (r : PluginRegistry) (i : Nat) (f : PluginFiber → PluginFiber) : PluginRegistry :=
  { r with fibers := Function.update r.fibers i (f (r.fibers i)) }

/-- `_transition`. -/
def transition (r : PluginRegistry) (i : Nat) (state : FiberState) : PluginRegistry :=
  r.modify i fun f => { f with state }

/-- `ServiceRegistry.has`. -/
def has (r : PluginRegistry) (name : String) : Bool :=
  match r.impls name with
  | some owner => r.state owner == .active
  | none => false

/-- `_is_satisfied`. -/
def isSatisfied (r : PluginRegistry) (i : Nat) : Bool := (r.plugin i).inject.all r.has

/-- The effect of `Context.provide`, when the name is free. -/
def register (r : PluginRegistry) (i : Nat) (name : String) : PluginRegistry :=
  { r.modify i fun f => { f with provided := f.provided ++ [name] } with
    impls := Function.update r.impls name (some i) }

/-- The disposer `revoke`. -/
def revoke (r : PluginRegistry) (i : Nat) (name : String) : PluginRegistry :=
  if r.impls name = some i then { r with impls := Function.update r.impls name none } else r

/-- The body of a plugin; `false` when it raises `ServiceConflictError`. -/
def body (i : Nat) : List String → PluginRegistry → PluginRegistry × Bool
  | [], r => (r, true)
  | name :: names, r =>
    match r.impls name with
    | some _ => (r, false)
    | none => body i names (r.register i name)

/-- `dispose_all` on the services left: each is revoked, and the registry
reconciled. -/
def disposeAll (reconcile : PluginRegistry → Option Outcome) (i : Nat) :
    List String → PluginRegistry → Option (PluginRegistry × List ReconcileError)
  | [], r => some (r, [])
  | name :: names, r =>
    match reconcile (r.revoke i name) with
    | some (r₁, error) =>
      match disposeAll reconcile i names r₁ with
      | some (r₂, errors) => some (r₂, error.toList ++ errors)
      | none => none
    | none => none

/-- The exception `dispose_all` raises. -/
def groupOf : List ReconcileError → Option ReconcileError
  | [] => none
  | errors => some (.disposing errors)

/-- `_unwind`, and the state the fiber settles in. -/
def settle (reconcile : PluginRegistry → Option Outcome) (r : PluginRegistry) (i : Nat) (state : FiberState) :
    Option Outcome :=
  match disposeAll reconcile i (r.provided i).reverse r with
  | some (r', errors) => some (r'.modify i fun f => { f with provided := [], state }, groupOf errors)
  | none => none

/-- `Fiber.load`; `validate` is `_is_satisfied`, where it is passed. -/
def load (reconcile : PluginRegistry → Option Outcome) (r : PluginRegistry) (i : Nat) (validate : Bool) :
    Option Outcome :=
  if r.state i = .pending then
    match body i (r.plugin i).provides (r.transition i .loading) with
    | (r', false) => r'.settle reconcile i .failed
    | (r', true) =>
      if validate && !r'.isSatisfied i then r'.settle reconcile i .pending else some (r'.transition i .active, none)
  else
    some (r, none)

/-- `Fiber.unload`. -/
def unload (reconcile : PluginRegistry → Option Outcome) (r : PluginRegistry) (i : Nat) : Option Outcome :=
  if (r.state i).isLive then (r.transition i .unloading).settle reconcile i .pending else some (r, none)

/-- `Fiber.dispose`. -/
def dispose (reconcile : PluginRegistry → Option Outcome) (r : PluginRegistry) (i : Nat) : Option Outcome :=
  if r.state i = .disposed then
    some (r, none)
  else if (r.state i).isLive then
    (if r.state i = .active then r.transition i .unloading else r).settle reconcile i .disposed
  else
    some (r.transition i .disposed, none)

/-- One of the loops of a pass: it acts on the fibers it applies to, and says
whether there was one. -/
def sweep (applies : PluginRegistry → Nat → Bool) (act : PluginRegistry → Nat → Option Outcome) :
    List Nat → PluginRegistry → Bool → Option (PluginRegistry × Bool × Option ReconcileError)
  | [], r, changed => some (r, changed, none)
  | i :: rest, r, changed =>
    if applies r i then
      match act r i with
      | some (r', none) => sweep applies act rest r' true
      | some (r', some error) => some (r', changed, some error)
      | none => none
    else
      sweep applies act rest r changed

/-- The loop that unloads. -/
def unloadSweep (reconcile : PluginRegistry → Option Outcome) :
    List Nat → PluginRegistry → Bool → Option (PluginRegistry × Bool × Option ReconcileError) :=
  sweep (fun r i => r.state i == .active && !r.isSatisfied i) (unload reconcile)

/-- The loop that loads. -/
def loadSweep (reconcile : PluginRegistry → Option Outcome) :
    List Nat → PluginRegistry → Bool → Option (PluginRegistry × Bool × Option ReconcileError) :=
  sweep (fun r i => r.state i == .pending && r.isSatisfied i) fun r i => r.load reconcile i true

/-- One pass of `reconcile`. -/
def pass (reconcile : PluginRegistry → Option Outcome) (r : PluginRegistry) :
    Option (PluginRegistry × Bool × Option ReconcileError) :=
  match unloadSweep reconcile r.mountedFibers r false with
  | some (r', changed, none) => loadSweep reconcile r'.mountedFibers r' changed
  | some (r', changed, some error) => some (r', changed, some error)
  | none => none

/-- The passes that are left. -/
def passes (reconcile : PluginRegistry → Option Outcome) : Nat → PluginRegistry → Option Outcome
  | 0, r => some (r, some .unstable)
  | left + 1, r =>
    match r.pass reconcile with
    | some (r', _, some error) => some (r', some error)
    | some (r', true, none) => passes reconcile left r'
    | some (r', false, none) => some (r', none)
    | none => none

/-- `reconcile`, with the calls inside it to a depth. -/
def reconcileWith : Nat → PluginRegistry → Option Outcome
  | 0, _ => none
  | depth + 1, r => passes (reconcileWith depth) maxPasses r

/-- `reconcile`.  Every call inside it has one more fiber that is unwound. -/
def reconcile (r : PluginRegistry) : Option Outcome := reconcileWith (r.count + 1) r

/-- `mount`. -/
def mount (r : PluginRegistry) (plugin : PluginSpec) : PluginRegistry :=
  { r with
    count := r.count + 1
    fibers := Function.update r.fibers r.count { plugin, state := .pending, mounted := true } }

/-- `unmount`. -/
def unmount (r : PluginRegistry) (i : Nat) : Option Outcome :=
  match (r.modify i fun f => { f with mounted := false }).dispose reconcile i with
  | some (r', none) => r'.reconcile
  | some (r', some error) => some (r', some error)
  | none => none

/-- A call of a method. -/
inductive Call
  | mount (plugin : PluginSpec)
  | reconcile
  | load (fiber : Nat)
  | unload (fiber : Nat)
  | dispose (fiber : Nat)
  | unmount (fiber : Nat)

/-- One call, to its end. -/
def step (r : PluginRegistry) : Call → Option PluginRegistry
  | .mount plugin => some (r.mount plugin)
  | .reconcile => r.reconcile.map Prod.fst
  | .load i => if i < r.count then (r.load reconcile i false).map Prod.fst else none
  | .unload i => if i < r.count then (r.unload reconcile i).map Prod.fst else none
  | .dispose i => if i < r.count then (r.dispose reconcile i).map Prod.fst else none
  | .unmount i => if i < r.count then (r.unmount i).map Prod.fst else none

end PluginRegistry

end MinionAgent
