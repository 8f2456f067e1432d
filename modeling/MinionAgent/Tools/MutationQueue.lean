import MinionAgent.Library.TwoStage
import MinionAgent.Library.Transition

/-!
# MinionAgent.Tools.MutationQueue

The queue that `write` and `edit` share (`tools/builtin/mutation_queue.py`):
calls register one at a time in call order, each resolving its key, and then
wait for the last entry of their provider and key.

The calls of one event loop are a transition system: an event is a call, the
continuation of a task at one of its awaits, or a cancellation delivered there.
-/

namespace MinionAgent

/-! ## Keys -/

/-- `FsErrorCode`. -/
inductive FsErrorCode
  | aborted | notFound | permissionDenied | notDirectory | isDirectory | invalid | notSupported | unknown
deriving DecidableEq

/-- `CAUSE_PHRASES`, which has no phrase for `aborted`. -/
def causePhrase : FsErrorCode → Option String
  | .notFound => some "no such file or directory"
  | .permissionDenied => some "permission denied"
  | .notDirectory => some "not a directory"
  | .isDirectory => some "is a directory"
  | .invalid => some "invalid path"
  | .notSupported => some "not supported by this provider"
  | .unknown => some "unknown filesystem error"
  | .aborted => none

/-- What a failed resolution raises: a `BuiltinToolError` with its text, or the
`KeyError` of a code without a phrase. -/
inductive ResolveError
  | builtinToolError (text : String)
  | keyError (code : FsErrorCode)
deriving DecidableEq

/-- The error of an answer that is none. -/
def cannotResolve (path : String) (code : FsErrorCode) : ResolveError :=
  match causePhrase code with
  | some phrase => .builtinToolError s!"Cannot resolve {path}: {phrase}"
  | none => .keyError code

/-- `mutation_queue_key`, given the answers of `canonical_path` and
`absolute_path`. -/
def mutationQueueKey (path : String) (canonical absolute : Except FsErrorCode String) : Except ResolveError String :=
  match canonical with
  | .ok target => .ok target
  | .error code =>
    if code = .notFound ∨ code = .notDirectory ∨ code = .notSupported then
      match absolute with
      | .ok target => .ok target
      | .error code => .error (cannotResolve path code)
    else .error (cannotResolve path code)

/-! ## Calls -/

/-- Where a call of `with_mutation_queue` is. -/
inductive QueuePhase
  /-- It awaits the registration before its own. -/
  | waiting
  /-- It awaits `mutation_queue_key`. -/
  | resolving
  /-- It awaits the release of the entry before its own. -/
  | queued
  /-- It awaits `fn()`. -/
  | running
  /-- It was cancelled while queued; its release awaits that of the entry before. -/
  | leaving
  | finished
deriving DecidableEq

/-- A provider and a key. -/
abbrev QueueScope : Type := Nat × String

/-- What `with_mutation_queue` is called with. -/
structure QueueRequest where
  provider : Nat
  path : String
deriving DecidableEq

/-- One call of `with_mutation_queue`.  `previous` and `current` refer to the
`registered` and the `released` of another call by its number; the call has
`begun` once its `mutation_queue_key` is called and `started` once its body
is. -/
abbrev QueueCall : Type := Member QueueRequest QueuePhase QueueScope

/-- `_State` of a loop, with its calls in the order in which they were made and
the calls whose bodies have started in the order in which they did. -/
abbrev MutationQueue : Type := TwoStage QueueRequest QueuePhase QueueScope

/-- What can happen on the loop. -/
inductive QueueEvent
  | call (provider : Nat) (path : String)
  | wake (i : Nat)
  | resolve (i : Nat) (canonical absolute : Except FsErrorCode String)
  | start (i : Nat)
  | finish (i : Nat)
  | release (i : Nat)
  | cancel (i : Nat)

/-- The call an event is about, but for a new one. -/
def QueueEvent.target : QueueEvent → Option Nat
  | .call _ _ => none
  | .wake i | .resolve i _ _ | .start i | .finish i | .release i | .cancel i => some i

namespace MutationQueue

/-- A body starts. -/
def begin (q : MutationQueue) (i : Nat) : MutationQueue :=
  { q.modify i fun call => { call with phase := .running, started := true } with starts := q.starts ++ [i] }

/-- `released.set_result(None)`. -/
def setReleased (q : MutationQueue) (i : Nat) : MutationQueue :=
  q.modify i fun call => { call with phase := .finished, released := true }

/-- `release`. -/
def release (q : MutationQueue) (i : Nat) (scope : QueueScope) : MutationQueue :=
  if q.tails scope = some i then { setReleased q i with tails := Function.update q.tails scope none }
  else setReleased q i

/-- The entry is queued and the registration settles. -/
def enqueue (q : MutationQueue) (i : Nat) (scope : QueueScope) : MutationQueue :=
  { q.modify i fun call =>
      { call with phase := .queued, registered := true, scope := some scope, current := q.tails scope } with
    tails := Function.update q.tails scope (some i) }

/-- The registration settles without an entry. -/
def abandon (q : MutationQueue) (i : Nat) : MutationQueue :=
  q.modify i fun call => { call with phase := .finished, registered := true }

/-- A call whose entry may be next goes on to its body at once. -/
def proceed (q : MutationQueue) (i : Nat) (current : Option Nat) : MutationQueue :=
  if q.isDone Member.released current then begin q i else q

/-- A new call of `with_mutation_queue`.  To await a registration that is done
does not suspend it. -/
def call (q : MutationQueue) (provider : Nat) (path : String) : MutationQueue :=
  { q with
    members := q.members ++
      [{ data := { provider, path }, previous := q.registration
         phase := if q.isDone Member.registered q.registration then .resolving else .waiting
         begun := q.isDone Member.registered q.registration }]
    registration := some q.members.length }

/-- What a call does when its task goes on or is cancelled. -/
def resume (q : MutationQueue) (call : QueueCall) : QueueEvent → Option MutationQueue
  | .wake i =>
    if call.phase = .waiting ∧ q.isDone Member.registered call.previous then
      some (q.modify i fun call => { call with phase := .resolving, begun := true })
    else none
  | .resolve i canonical absolute =>
    if call.phase = .resolving then
      match mutationQueueKey call.data.path canonical absolute with
      | .error _ => some (abandon q i)
      | .ok key => some (proceed (enqueue q i (call.data.provider, key)) i (q.tails (call.data.provider, key)))
    else none
  | .start i =>
    if call.phase = .queued ∧ q.isDone Member.released call.current then some (begin q i) else none
  | .finish i =>
    match call.phase, call.scope with
    | .running, some scope => some (release q i scope)
    | _, _ => none
  | .release i =>
    match call.phase, call.scope with
    | .leaving, some scope => if q.isDone Member.released call.current then some (release q i scope) else none
    | _, _ => none
  | .cancel i =>
    match call.phase, call.scope with
    | .waiting, _ => some (abandon q i)
    | .resolving, _ => some (abandon q i)
    | .queued, some scope =>
      if q.isDone Member.released call.current then some (release q i scope)
      else some (q.modify i fun call => { call with phase := .leaving })
    | _, _ => none
  | .call _ _ => none

/-- One event of the loop. -/
def step (q : MutationQueue) : QueueEvent → Option MutationQueue
  | .call provider path => some (call q provider path)
  | event => do
    let i ← event.target
    let call ← q.members[i]?
    resume q call event

/-- The state after a list of events. -/
def run (es : List QueueEvent) : Option MutationQueue := Transition.run step {} es

end MutationQueue

end MinionAgent
