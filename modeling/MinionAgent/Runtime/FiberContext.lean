import MinionAgent.Runtime.FiberHandle

/-!
# MinionAgent.Runtime.FiberContext

The contexts a coordinated Rust fiber hands to its initializer
(`runtime/fiber.rs`), with the effect stores behind them
(`runtime/disposable.rs`) and the service registry (`runtime/service.rs`).

Every generation has one store and one context, so both carry its number.
The fiber itself is that of `FiberHandle`; here its cleanup is taken apart,
and `effect`, `provide` and the handles they return may be used at any time.

* `effect` pushes to the store of the context, or to the one of the scope the
  fiber was mounted in;
* `provide` validates and draws an ID, looks up the store of the *fiber*, and
  pushes there, in three sections of three locks.

The names of services are normative, and disposers do not fail.
-/

namespace MinionAgent.Rust

/-- A service type: its name and its `TypeId`. -/
structure Service where
  name : String
  typeId : Nat
deriving DecidableEq

/-- `ServiceEntry`: `context` is the number of the context it was provided
through, or `none` where another owner provided it. -/
structure ServiceEntry where
  name : String
  id : Nat
  context : Option Nat
deriving DecidableEq

/-- The disposer in an `EffectSlot`: held, taken, or run. -/
inductive SlotState
  | held | taken | done
deriving DecidableEq

/-- `EffectSlot`, with the context it was pushed through and the store it was
pushed to (`none` for the one of the scope).  A service has the registration
it removes.  `late` says that the generation of the context was closed. -/
structure EffectSlot where
  context : Nat
  store : Option Nat
  service : Option (String × Nat) := none
  slot : SlotState := .held
  late : Bool
deriving DecidableEq

/-- Where a call of `provide` has got to. -/
inductive ProvidePoint
  | allocated
  | resolved (store : Option Nat)
  | returned (registered : Bool)
deriving DecidableEq

/-- A call of `provide`, with the ID of its registration. -/
structure ProvideCall where
  context : Nat
  service : Service
  id : Nat
  point : ProvidePoint
deriving DecidableEq

/-- `dispose_entries`: the slots left, and the one whose disposer runs. -/
structure Unwind where
  store : Nat
  remaining : List Nat
  running : Option Nat := none
deriving DecidableEq

/-- A coordinated fiber.  `scope` says whether the store of its scope accepts
effects, if it was mounted in one; `cleaned` lists the stores whose cleanup
has finished. -/
structure FiberContext where
  fiber : FiberHandle := {}
  scope : Option Bool := none
  slots : List EffectSlot := []
  registrations : List ServiceEntry := []
  contracts : List Service := []
  nextRegistrationId : Nat := 0
  provides : List ProvideCall := []
  unwind : Option Unwind := none
  cleaned : List Nat := []
deriving DecidableEq

/-- What happens next. -/
inductive ContextEvent
  /-- Something happens to the fiber. -/
  | fiber (event : HandleEvent)
  | closeScope
  | effect (context : Nat)
  /-- `provide`, its look at the store, and its push. -/
  | provide (context : Nat) (service : Service)
  | resolve (call : Nat)
  | commit (call : Nat)
  /-- `close_and_dispose` by the cleanup of the task. -/
  | beginUnwind (task : Nat)
  | unwind
  /-- A handle takes a disposer, and the disposer is run. -/
  | take (slot : Nat)
  | dispose (slot : Nat)
  /-- Other owners provide and revoke. -/
  | otherProvides (service : Service)
  | otherRevokes (id : Nat)
deriving DecidableEq

namespace FiberContext

/-- Whether a store accepts effects. -/
def accepting (s : FiberContext) (store : Nat) : Bool := s.fiber.stores[store]? == some true

/-- The generation of a context was closed. -/
def closed (s : FiberContext) (context : Nat) : Bool := s.fiber.stores[context]? == some false

/-- `validate_registration`. -/
def validateRegistration (s : FiberContext) (service : Service) : Bool :=
  s.contracts.all (fun contract => contract.name != service.name || contract.typeId == service.typeId) &&
    s.registrations.all (fun entry => entry.name != service.name)

/-- `contracts.entry(..).or_insert(..)`. -/
def contract (s : FiberContext) (service : Service) : List Service :=
  if s.contracts.any (fun contract => contract.name == service.name) then s.contracts else s.contracts ++ [service]

/-- `FiberInitContext::effect`. -/
def effect (s : FiberContext) (context : Nat) : FiberContext :=
  match s.scope with
  | some true => { s with slots := s.slots ++ [{ context, store := none, late := s.closed context }] }
  | some false => s
  | none =>
    if s.accepting context then
      { s with slots := s.slots ++ [{ context, store := some context, late := s.closed context }] }
    else
      s

/-- The first section of `ServiceRegistry::provide`. -/
def provide (s : FiberContext) (context : Nat) (service : Service) : FiberContext :=
  let id := s.nextRegistrationId
  if s.validateRegistration service then
    { s with
      provides := s.provides ++ [{ context, service, id, point := .allocated }]
      nextRegistrationId := id + 1 }
  else
    { s with provides := s.provides ++ [{ context, service, id, point := .returned false }] }

/-- A call of `provide` goes on. -/
def provideTo (s : FiberContext) (c : Nat) (point : ProvidePoint) : FiberContext :=
  { s with provides := s.provides.modify c fun call => { call with point } }

/-- `current_effect_store`; `none` is a store of its own, which is closed. -/
def currentEffectStore (s : FiberContext) : Option Nat := s.fiber.current.map Generation.store

/-- Whether `try_push_with_commit` succeeds. -/
def admits (s : FiberContext) (service : Service) : Option Nat → Bool
  | some store => s.accepting store && s.validateRegistration service
  | none => false

/-- `try_push_with_commit`, where it succeeds. -/
def register (s : FiberContext) (call : ProvideCall) (store : Option Nat) : FiberContext :=
  { s with
    slots := s.slots ++
      [{ context := call.context, store, service := some (call.service.name, call.id), late := s.closed call.context }]
    registrations := s.registrations ++ [{ name := call.service.name, id := call.id, context := some call.context }]
    contracts := s.contract call.service }

/-- The disposer of a slot is run: a service removes its registration. -/
def runDisposer (s : FiberContext) (i : Nat) (slot : EffectSlot) : FiberContext :=
  { s with
    slots := s.slots.modify i fun slot => { slot with slot := .done }
    registrations := s.registrations.filter fun entry => slot.service != some (entry.name, entry.id) }

/-- The disposer of a slot is taken. -/
def takeDisposer (s : FiberContext) (i : Nat) : FiberContext :=
  { s with slots := s.slots.modify i fun slot => { slot with slot := .taken } }

/-- The slots of a store, the newest first. -/
def slotsOf (s : FiberContext) (store : Nat) : List Nat :=
  ((List.range s.slots.length).filter fun i => (s.slots[i]?.bind EffectSlot.store) == some store).reverse

/-- A task is in its cleanup. -/
def cleaning (s : FiberContext) (t : Nat) : Bool :=
  match s.fiber.tasks[t]? with
  | some { point := .cleaning _, .. } | some { point := .unwinding, .. } => true
  | _ => false

/-- The cleanup of a store has finished. -/
def finishUnwind (s : FiberContext) (fiber : FiberHandle) (u : Unwind) : FiberContext :=
  { s with fiber, unwind := none, cleaned := u.store :: s.cleaned }

/-- One step of `dispose_entries`. -/
def unwindStep (s : FiberContext) (u : Unwind) : Option FiberContext :=
  match u.running, u.remaining with
  | some i, _ =>
    match s.slots[i]? with
    | some slot => some { s.runDisposer i slot with unwind := some { u with running := none } }
    | none => none
  | none, i :: remaining =>
    match s.slots[i]? with
    | some { slot := .held, .. } =>
        some { s.takeDisposer i with unwind := some { u with remaining, running := some i } }
    | _ => some { s with unwind := some { u with remaining } }
  | none, [] => none

/-- One step; `none` where the event cannot happen. -/
def step (s : FiberContext) : ContextEvent → Option FiberContext
  | .fiber (.cleaned t failed) =>
    match s.unwind, s.fiber.step (.cleaned t failed) with
    | some u, some fiber => if u.remaining = [] ∧ u.running = none then some (s.finishUnwind fiber u) else none
    | _, _ => none
  | .fiber event => (s.fiber.step event).map fun fiber => { s with fiber }
  | .closeScope => some { s with scope := s.scope.map fun _ => false }
  | .effect context => if context < s.fiber.stores.length then some (s.effect context) else none
  | .provide context service =>
    if context < s.fiber.stores.length then some (s.provide context service) else none
  | .resolve c =>
    match s.provides[c]? with
    | some { point := .allocated, .. } => some (s.provideTo c (.resolved s.currentEffectStore))
    | _ => none
  | .commit c =>
    match s.provides[c]? with
    | some call =>
      match call.point with
      | .resolved store =>
        if s.admits call.service store then
          some ((s.register call store).provideTo c (.returned true))
        else
          some (s.provideTo c (.returned false))
      | _ => none
    | none => none
  | .beginUnwind t =>
    match s.unwind, s.fiber.current with
    | none, some g =>
      if s.cleaning t then some { s with unwind := some { store := g.store, remaining := s.slotsOf g.store } } else none
    | _, _ => none
  | .unwind =>
    match s.unwind with
    | some u => s.unwindStep u
    | none => none
  | .take i =>
    match s.slots[i]? with
    | some { slot := .held, .. } => some (s.takeDisposer i)
    | _ => none
  | .dispose i =>
    match s.slots[i]? with
    | some slot =>
      if slot.slot = .taken ∧ s.unwind.bind Unwind.running ≠ some i then some (s.runDisposer i slot) else none
    | none => none
  | .otherProvides service =>
    if s.validateRegistration service then
      some { s with
        registrations := s.registrations ++ [{ name := service.name, id := s.nextRegistrationId, context := none }]
        contracts := s.contract service
        nextRegistrationId := s.nextRegistrationId + 1 }
    else
      none
  | .otherRevokes id =>
    some { s with registrations := s.registrations.filter fun entry => !(entry.id == id && entry.context.isNone) }

end FiberContext

end MinionAgent.Rust
