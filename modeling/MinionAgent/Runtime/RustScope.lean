import Mathlib.Data.List.Sort
import MinionAgent.Library.Forest
import MinionAgent.Library.Transition

/-!
# MinionAgent.Runtime.RustScope

The Rust scope tree (`runtime/scope.rs`) with the effect stores of its scopes
(`runtime/disposable.rs`).  Unwinds are shared futures, which anyone that
awaits them may drive; between two of their awaits, everything else may
happen.

* `BulkUnwind` — `dispose_generation` of one store;
* `ScopeUnwind` — `dispose_scope_generation` of one scope;
* `ScopeTree.step` — one section of a lock, one disposer started, or one
  disposer completed.

Disposers are taken to complete, with an error or without.
-/

namespace MinionAgent.Rust

/-- Who took a disposer out of its slot. -/
inductive Starter
  | handle
  | unwind (bulk : Nat)
deriving DecidableEq

/-- The disposer of an `EffectSlot`. -/
inductive SlotPhase
  | held
  | running (starter : Starter)
  | done (starter : Starter)
deriving DecidableEq

/-- An entry of the store of a scope; `starts` counts the calls of its
disposer. -/
structure ScopeSlot where
  scope : Nat
  phase : SlotPhase := .held
  starts : Nat := 0
deriving DecidableEq

/-- `ScopeNode`, with `accepting` and `in_flight_unwind` of its store and its
entry of `in_flight_disposals`. -/
structure ScopeNode where
  parent : Option Nat
  depth : Nat
  active : Bool := true
  accepting : Bool := true
  inFlightUnwind : Option Nat := none
  inFlightDisposal : Option Nat := none
deriving DecidableEq

/-- `dispose_entries` on a store: the slots left, and the one whose disposer
runs.  `disposal` is the disposal of a scope that began it, if any. -/
structure BulkUnwind where
  scope : Nat
  remaining : List Nat
  running : Option Nat := none
  finished : Bool := false
  disposal : Option Nat := none
deriving DecidableEq

/-- `dispose_scope_generation`: the scopes left, and the bulk unwind of the
first of them that is awaited. -/
structure ScopeUnwind where
  root : Nat
  remaining : List Nat
  awaiting : Option Nat := none
  finished : Bool := false
deriving DecidableEq

/-- A call of `ScopeHandle::dispose`. -/
inductive ScopeCall
  | waiting (disposal : Nat)
  | returned
deriving DecidableEq

/-- `ScopeTreeState`.  Scopes, unwinds and disposals are numbered as they are
created, which stands for their generations. -/
structure ScopeTree where
  scopes : List ScopeNode := []
  slots : List ScopeSlot := []
  bulks : List BulkUnwind := []
  disposals : List ScopeUnwind := []
  calls : List ScopeCall := []
deriving DecidableEq

/-- What happens next. -/
inductive TreeEvent
  | createRoot
  | createChild (parent : Nat)
  | push (scope : Nat)
  | dispose (scope : Nat)
  | closeAndDispose (scope : Nat)
  /-- `EffectHandle::dispose` takes the disposer; the disposer completes. -/
  | handle (slot : Nat)
  | handleEnds (slot : Nat)
  | bulk (bulk : Nat)
  | disposal (disposal : Nat)
  | call (call : Nat)
deriving DecidableEq

namespace ScopeTree

/-- The parent of a scope. -/
def parent? (s : ScopeTree) (scope : Nat) : Option Nat := s.scopes[scope]?.bind ScopeNode.parent

/-- The depth of a scope. -/
def depth (s : ScopeTree) (scope : Nat) : Nat := (s.scopes[scope]?.map ScopeNode.depth).getD 0

/-- `create_scope`. -/
def createScope (s : ScopeTree) (parent : Option Nat) (depth : Nat) : ScopeTree :=
  { s with scopes := s.scopes ++ [{ parent, depth }] }

/-- `EffectStore::push`. -/
def push (s : ScopeTree) (scope : Nat) : ScopeTree := { s with slots := s.slots ++ [{ scope }] }

/-- `collect_subtree`. -/
def collectSubtree (s : ScopeTree) (root : Nat) : List Nat :=
  Forest.collect s.parent? s.scopes.length (s.scopes.length + 1) [root]

/-- `sort_by_key` by depth, the deepest first. -/
def sortByDepth (s : ScopeTree) (scopes : List Nat) : List Nat :=
  scopes.insertionSort fun a b => s.depth b ≤ s.depth a

/-- The section of `ScopeHandle::dispose` that begins a disposal. -/
def beginDisposal (s : ScopeTree) (root : Nat) : ScopeTree :=
  let subtree := s.collectSubtree root
  { s with
    scopes := (s.scopes.mapIdx fun scope node =>
        if scope ∈ subtree then { node with active := false, accepting := false } else node).modify root
      fun node => { node with inFlightDisposal := some s.disposals.length }
    disposals := s.disposals ++ [{ root, remaining := s.sortByDepth subtree }] }

/-- A call of `ScopeHandle::dispose`. -/
def dispose (s : ScopeTree) (scope : Nat) (node : ScopeNode) : ScopeTree :=
  match node.inFlightDisposal with
  | some disposal => { s with calls := s.calls ++ [.waiting disposal] }
  | none =>
    if node.active then
      { s.beginDisposal scope with calls := s.calls ++ [.waiting s.disposals.length] }
    else
      { s with calls := s.calls ++ [.returned] }

/-- The slots of a store, the newest first. -/
def slotsOf (s : ScopeTree) (scope : Nat) : List Nat :=
  ((List.range s.slots.length).filter fun i => s.slots[i]?.map ScopeSlot.scope == some scope).reverse

/-- The section of `EffectStore::close_and_dispose`, with the unwind it
returns. -/
def closeAndDispose (s : ScopeTree) (scope : Nat) (node : ScopeNode) (disposal : Option Nat) : ScopeTree × Nat :=
  match node.inFlightUnwind with
  | some bulk => ({ s with scopes := s.scopes.modify scope fun node => { node with accepting := false } }, bulk)
  | none =>
    ({ s with
        scopes := s.scopes.modify scope fun node =>
          { node with accepting := false, inFlightUnwind := some s.bulks.length }
        bulks := s.bulks ++ [{ scope, remaining := s.slotsOf scope, disposal }] },
      s.bulks.length)

/-- A disposer is taken and called. -/
def start (s : ScopeTree) (i : Nat) (starter : Starter) : ScopeTree :=
  { s with slots := s.slots.modify i fun slot => { slot with phase := .running starter, starts := slot.starts + 1 } }

/-- A disposer completes. -/
def complete (s : ScopeTree) (i : Nat) (starter : Starter) : ScopeTree :=
  { s with slots := s.slots.modify i fun slot => { slot with phase := .done starter } }

/-- A bulk unwind goes on. -/
def setBulk (s : ScopeTree) (b : Nat) (f : BulkUnwind → BulkUnwind) : ScopeTree :=
  { s with bulks := s.bulks.modify b f }

/-- A disposal goes on. -/
def setDisposal (s : ScopeTree) (w : Nat) (f : ScopeUnwind → ScopeUnwind) : ScopeTree :=
  { s with disposals := s.disposals.modify w f }

/-- The end of `dispose_generation`. -/
def finishBulk (s : ScopeTree) (b : Nat) (bulk : BulkUnwind) : ScopeTree :=
  { s.setBulk b fun bulk => { bulk with finished := true } with
    scopes := s.scopes.modify bulk.scope fun node =>
      { node with inFlightUnwind := if node.inFlightUnwind = some b then none else node.inFlightUnwind } }

/-- The end of `dispose_scope_generation`. -/
def finishDisposal (s : ScopeTree) (w : Nat) (disposal : ScopeUnwind) : ScopeTree :=
  { s.setDisposal w fun disposal => { disposal with finished := true } with
    scopes := s.scopes.modify disposal.root fun node =>
      { node with inFlightDisposal := if node.inFlightDisposal = some w then none else node.inFlightDisposal } }

/-- One step of a bulk unwind. -/
def bulkStep (s : ScopeTree) (b : Nat) (bulk : BulkUnwind) : Option ScopeTree :=
  if bulk.finished then
    none
  else
    match bulk.running, bulk.remaining with
    | some i, _ => some ((s.complete i (.unwind b)).setBulk b fun bulk => { bulk with running := none })
    | none, i :: remaining =>
      match s.slots[i]?.map ScopeSlot.phase with
      | some .held =>
        some ((s.start i (.unwind b)).setBulk b fun bulk => { bulk with remaining, running := some i })
      | _ => some (s.setBulk b fun bulk => { bulk with remaining })
    | none, [] => some (s.finishBulk b bulk)

/-- One step of a disposal. -/
def disposalStep (s : ScopeTree) (w : Nat) (disposal : ScopeUnwind) : Option ScopeTree :=
  if disposal.finished then
    none
  else
    match disposal.awaiting, disposal.remaining with
    | some b, remaining =>
      match s.bulks[b]?.map BulkUnwind.finished with
      | some true =>
          some (s.setDisposal w fun disposal => { disposal with remaining := remaining.tail, awaiting := none })
      | _ => none
    | none, scope :: _ =>
      match s.scopes[scope]? with
      | some node =>
        match s.closeAndDispose scope node (some w) with
        | (s', b) => some (s'.setDisposal w fun disposal => { disposal with awaiting := some b })
      | none => none
    | none, [] => some (s.finishDisposal w disposal)

/-- One step; `none` where the event cannot happen. -/
def step (s : ScopeTree) : TreeEvent → Option ScopeTree
  | .createRoot => some (s.createScope none 0)
  | .createChild parent =>
    match s.scopes[parent]? with
    | some node => if node.active then some (s.createScope (some parent) (node.depth + 1)) else none
    | none => none
  | .push scope =>
    match s.scopes[scope]? with
    | some node => if node.accepting then some (s.push scope) else none
    | none => none
  | .dispose scope =>
    match s.scopes[scope]? with
    | some node => some (s.dispose scope node)
    | none => none
  | .closeAndDispose scope =>
    match s.scopes[scope]? with
    | some node => some (s.closeAndDispose scope node none).1
    | none => none
  | .handle i =>
    match s.slots[i]? with
    | some slot => some (if slot.phase = .held then s.start i .handle else s)
    | none => none
  | .handleEnds i =>
    match s.slots[i]? with
    | some slot => if slot.phase = .running .handle then some (s.complete i .handle) else none
    | none => none
  | .bulk b =>
    match s.bulks[b]? with
    | some bulk => s.bulkStep b bulk
    | none => none
  | .disposal w =>
    match s.disposals[w]? with
    | some disposal => s.disposalStep w disposal
    | none => none
  | .call c =>
    match s.calls[c]? with
    | some (.waiting w) =>
      match s.disposals[w]?.map ScopeUnwind.finished with
      | some true => some { s with calls := s.calls.set c .returned }
      | _ => none
    | _ => none

end ScopeTree

end MinionAgent.Rust
