import MinionAgent.Library.Ownership
import MinionAgent.Llm.Messages

/-!
# MinionAgent.Llm.Registrations

The adapters that the service resolves models to, in both bindings
(`llm/service.py`, `llm/service.rs`): a registration, its withdrawal handle,
and the dispatch of a request.

* `LlmService.run_eq`, `Rust.LlmService.run_eq` — both are registries of owned
  entries;
* `registrations_owned` — whose adapter a model resolves to, and that a handle
  leaves what is not its own.
-/

namespace MinionAgent

/-! ## Python -/

/-- An adapter, as it is when it is registered. -/
structure Adapter where
  provider : String
  api : String
  models : List String

/-- `LlmService`: the adapter object and the token of each model. -/
structure LlmService where
  adapters : FiniteMap ModelId (Nat × Nat) := ∅

/-- What the closure `withdraw` holds. -/
structure Withdrawal where
  ids : List ModelId
  token : Nat

/-- `LlmService.stream`'s error. -/
structure UnknownModelError where
  message : String
deriving DecidableEq

namespace LlmService

/-- `register`: `adapter` is the object, `held` what it holds now, and `token`
is fresh. -/
def register (service : LlmService) (adapter : Nat) (held : Adapter) (token : Nat) : LlmService × Withdrawal :=
  let ids := held.models.map fun model => { provider := held.provider, model, api := held.api }
  ({ adapters := ids.foldl (fun adapters id => adapters.insert id (adapter, token)) service.adapters }, { ids, token })

/-- `withdraw`. -/
def withdraw (service : LlmService) (withdrawal : Withdrawal) : LlmService where
  adapters := withdrawal.ids.foldl (fun adapters id =>
    match adapters.lookup id with
    | none => adapters
    | some entry => if entry.2 == withdrawal.token then adapters.erase id else adapters) service.adapters

/-- `stream`, up to the adapter that it dispatches to. -/
def dispatch (service : LlmService) (model : ModelId) : Except UnknownModelError Nat :=
  match service.adapters.lookup model with
  | none => .error { message := "no adapter supplies " ++ model.provider ++ "/" ++ model.model }
  | some (adapter, _) => .ok adapter

/-- A call of `register`, or of the n-th handle. -/
inductive Call
  | register (adapter : Nat) (held : Adapter)
  | withdraw (handle : Nat)

/-- The service and the handles that it returned. -/
structure Used where
  service : LlmService := {}
  handles : List Withdrawal := []

/-- A call with a new object for a token. -/
def Used.call (used : Used) : Call → Used
  | .register adapter held =>
    let (service, handle) := used.service.register adapter held used.handles.length
    { service, handles := used.handles ++ [handle] }
  | .withdraw n =>
    match used.handles[n]? with
    | none => used
    | some handle => { used with service := used.service.withdraw handle }

def run (calls : List Call) : Used := calls.foldl Used.call {}

/-- What a call covers. -/
def Call.owned : Call → Ownership.Call ModelId Nat
  | .register adapter held =>
    .cover (held.models.map fun model => { provider := held.provider, model, api := held.api }) adapter
  | .withdraw n => .withdraw n

/-- The registry that the service and its handles are. -/
def Used.registry (used : Used) : Ownership.Registry ModelId Nat where
  entries := used.service.adapters
  handles := used.handles.map fun handle => { keys := handle.ids, token := handle.token }

theorem adapters_withdraw (service : LlmService) (withdrawal : Withdrawal) :
    (service.withdraw withdrawal).adapters =
      Ownership.Handle.withdraw { keys := withdrawal.ids, token := withdrawal.token } service.adapters := by
  refine congrArg (fun step => withdrawal.ids.foldl step service.adapters) ?_
  funext adapters id
  cases adapters.lookup id <;> rfl

theorem registry_call (used : Used) (call : Call) : (used.call call).registry = used.registry.call call.owned := by
  cases call with
  | register adapter held => simp [Used.call, Used.registry, Call.owned, Ownership.Registry.call, Ownership.cover,
      Ownership.insertAll, register]
  | withdraw n =>
    simp only [Used.call, Call.owned, Ownership.Registry.call, Used.registry, List.getElem?_map]
    cases used.handles[n]? with
    | none => rfl
    | some handle => simp only [Option.map_some, adapters_withdraw]

/-- The service is a registry of owned entries. -/
theorem run_eq (calls : List Call) : (run calls).registry = Ownership.run (calls.map Call.owned) := by
  induction calls using List.reverseRecOn with
  | nil => rfl
  | append_singleton calls call ih =>
    rw [List.map_append, List.map_singleton, Ownership.run_concat, ← ih, ← registry_call, run, List.foldl_concat, ← run]

end LlmService

/-! ## Rust -/

namespace Rust

/-- `RegisteredAdapter`: the adapter and the owner, by their addresses. -/
abbrev RegisteredAdapter := Nat × Nat

/-- `LlmService`. -/
structure LlmService where
  adapters : FiniteMap ModelId RegisteredAdapter := ∅

/-- `LlmRegistration`, of a service that is alive. -/
structure LlmRegistration where
  identities : List ModelId
  owner : Nat

inductive LlmStartError
  | unknownModel (model : ModelId)
deriving DecidableEq

namespace LlmService

/-- `register_models`, with a new `owner`. -/
def registerModels (service : LlmService) (identities : List ModelId) (adapter owner : Nat) :
    LlmService × LlmRegistration :=
  ({ adapters := identities.foldl (fun entries identity => entries.insert identity (adapter, owner)) service.adapters },
    { identities, owner })

/-- `withdraw`. -/
def withdraw (service : LlmService) (registration : LlmRegistration) : LlmService where
  adapters := registration.identities.foldl (fun entries identity =>
    if (entries.lookup identity).any fun entry => entry.2 == registration.owner then entries.erase identity
    else entries) service.adapters

/-- `stream`, up to the adapter that it starts. -/
def start (service : LlmService) (model : ModelId) : Except LlmStartError Nat :=
  match service.adapters.lookup model with
  | none => .error (.unknownModel model)
  | some (adapter, _) => .ok adapter

/-- The service and the registrations that it returned. -/
structure Used where
  service : LlmService := {}
  registrations : List LlmRegistration := []

/-- `register_models`, or a `withdraw` of the n-th registration. -/
def Used.call (used : Used) : Ownership.Call ModelId Nat → Used
  | .cover identities adapter =>
    let (service, registration) := used.service.registerModels identities adapter used.registrations.length
    { service, registrations := used.registrations ++ [registration] }
  | .withdraw n =>
    match used.registrations[n]? with
    | none => used
    | some registration => { used with service := used.service.withdraw registration }

def run (calls : List (Ownership.Call ModelId Nat)) : Used := calls.foldl Used.call {}

/-- The registry that the service and its registrations are. -/
def Used.registry (used : Used) : Ownership.Registry ModelId Nat where
  entries := used.service.adapters
  handles := used.registrations.map fun registration => { keys := registration.identities, token := registration.owner }

theorem adapters_withdraw (service : LlmService) (registration : LlmRegistration) :
    (service.withdraw registration).adapters =
      Ownership.Handle.withdraw { keys := registration.identities, token := registration.owner } service.adapters := by
  refine congrArg (fun step => registration.identities.foldl step service.adapters) ?_
  funext entries identity
  cases entries.lookup identity <;> rfl

theorem registry_call (used : Used) (call : Ownership.Call ModelId Nat) :
    (used.call call).registry = used.registry.call call := by
  cases call with
  | cover identities adapter =>
    simp [Used.call, Used.registry, Ownership.Registry.call, Ownership.cover, Ownership.insertAll, registerModels]
  | withdraw n =>
    simp only [Used.call, Ownership.Registry.call, Used.registry, List.getElem?_map]
    cases used.registrations[n]? with
    | none => rfl
    | some registration => simp only [Option.map_some, adapters_withdraw]

/-- The service is a registry of owned entries. -/
theorem run_eq (calls : List (Ownership.Call ModelId Nat)) : (run calls).registry = Ownership.run calls := by
  induction calls using List.reverseRecOn with
  | nil => rfl
  | append_singleton calls call ih =>
    rw [Ownership.run_concat, ← ih, ← registry_call, run, List.foldl_concat, ← run]

end LlmService

end Rust

/-! ## Both -/

/-- The adapter that a model resolves to, its entry, and the entries that the
n-th handle leaves, are as the calls have it. -/
structure OwnedPerCall (calls : List (Ownership.Call ModelId Nat)) (resolves : ModelId → Nat → Prop)
    (adapters : FiniteMap ModelId (Nat × Nat)) (withdrawn : Nat → FiniteMap ModelId (Nat × Nat)) : Prop where
  resolves_iff : ∀ model adapter, resolves model adapter ↔ ∃ n, Ownership.Holds calls model adapter n
  lookup_iff : ∀ model adapter n, adapters.lookup model = some (adapter, n) ↔ Ownership.Holds calls model adapter n
  withdrawn_other : ∀ model entry n, adapters.lookup model = some entry → entry.2 ≠ n →
    (withdrawn n).lookup model = some entry

/-- A registry is owned per call. -/
theorem ownedPerCall_of_run {calls : List (Ownership.Call ModelId Nat)} {resolves : ModelId → Nat → Prop}
    {adapters : FiniteMap ModelId (Nat × Nat)} {withdrawn : Nat → FiniteMap ModelId (Nat × Nat)}
    (hresolves : ∀ model adapter, resolves model adapter ↔ ∃ n, adapters.lookup model = some (adapter, n))
    (hadapters : adapters = (Ownership.run calls).entries)
    (hwithdrawn : ∀ n, withdrawn n = ((Ownership.run calls).call (.withdraw n)).entries) :
    OwnedPerCall calls resolves adapters withdrawn where
  resolves_iff model adapter := by simp only [hresolves, hadapters, Ownership.lookup_run]
  lookup_iff model adapter n := by rw [hadapters, Ownership.lookup_run]
  withdrawn_other model entry n hentry hother := by
    rw [hwithdrawn]
    rw [hadapters] at hentry
    exact Ownership.lookup_withdraw (fun _ h => Ownership.token_handles_run h) hentry hother

theorem LlmService.dispatch_eq_ok (service : LlmService) (model : ModelId) (adapter : Nat) :
    service.dispatch model = .ok adapter ↔ ∃ n, service.adapters.lookup model = some (adapter, n) := by
  unfold dispatch
  cases service.adapters.lookup model with
  | none => simp
  | some entry => simp [Prod.ext_iff]

theorem Rust.LlmService.start_eq_ok (service : Rust.LlmService) (model : ModelId) (adapter : Nat) :
    service.start model = .ok adapter ↔ ∃ n, service.adapters.lookup model = some (adapter, n) := by
  unfold start
  cases service.adapters.lookup model with
  | none => simp
  | some entry => simp [Prod.ext_iff]

/-- In both bindings, a model resolves to the adapter of the last call that
covered it, unless that is withdrawn, and no withdrawal removes an entry of
another call. -/
theorem registrations_owned :
    (∀ calls, OwnedPerCall (calls.map LlmService.Call.owned)
      (fun model adapter => (LlmService.run calls).service.dispatch model = .ok adapter)
      (LlmService.run calls).service.adapters
      fun n => ((LlmService.run calls).call (.withdraw n)).service.adapters) ∧
    ∀ calls, OwnedPerCall calls
      (fun model adapter => (Rust.LlmService.run calls).service.start model = .ok adapter)
      (Rust.LlmService.run calls).service.adapters
      fun n => ((Rust.LlmService.run calls).call (.withdraw n)).service.adapters := by
  constructor
  · intro calls
    refine ownedPerCall_of_run (fun model adapter => LlmService.dispatch_eq_ok _ model adapter) ?_ fun n => ?_
    · exact congrArg Ownership.Registry.entries (LlmService.run_eq calls)
    · rw [← LlmService.run_eq, ← LlmService.Call.owned, ← LlmService.registry_call]
      rfl
  · intro calls
    refine ownedPerCall_of_run (fun model adapter => Rust.LlmService.start_eq_ok _ model adapter) ?_ fun n => ?_
    · exact congrArg Ownership.Registry.entries (Rust.LlmService.run_eq calls)
    · rw [← Rust.LlmService.run_eq, ← Rust.LlmService.registry_call]
      rfl

end MinionAgent
