import MinionAgent.Library.Waterfall
import MinionAgent.Llm.Messages
import MinionAgent.Runtime.ScopeTree

/-!
# MinionAgent.Tools.PostExecute

The `tools/post-execute` event (`_finalize` of `tools/execute.py` over
`EventBus.waterfall` of `runtime/events.py`): the result of a tool call goes
through the admitted listeners, each of which may transform it, replace it or
end the chain.

What a listener cannot do is change whose result it is.  `restore` puts the
call's id, the tool's name, the added tools and the run's signal back at every
hand-off, and `finalize` once more at the end (`post_execute_identity_kept`).
-/

namespace MinionAgent

open Py

/-! ## Results -/

/-- `ToolResult`: one finalized tool outcome. -/
structure ToolResult where
  toolCallId : String
  content : List ToolResultContentBlock
  toolName : String
  isError : Bool := false
  details : Value := .dict []
  terminate : Bool := false
  addedToolNames : List String := []
  usage : Option Usage := none
deriving DecidableEq

/-- What a result says it is the result of. -/
structure ToolResult.SameIdentity (result executed : ToolResult) : Prop where
  toolCallId : result.toolCallId = executed.toolCallId
  toolName : result.toolName = executed.toolName
  addedToolNames : result.addedToolNames = executed.addedToolNames

/-- What a listener may replace of a result. -/
structure ToolResult.SameOutcome (result value : ToolResult) : Prop where
  content : result.content = value.content
  details : result.details = value.details
  isError : result.isError = value.isError
  usage : result.usage = value.usage
  terminate : result.terminate = value.terminate

theorem ToolResult.SameIdentity.refl (result : ToolResult) : result.SameIdentity result := ⟨rfl, rfl, rfl⟩

theorem ToolResult.SameIdentity.trans {r₁ r₂ r₃ : ToolResult} (h : r₁.SameIdentity r₂) (h' : r₂.SameIdentity r₃) :
    r₁.SameIdentity r₃ :=
  ⟨h.toolCallId.trans h'.toolCallId, h.toolName.trans h'.toolName, h.addedToolNames.trans h'.addedToolNames⟩

/-- `AfterToolCallOverride`: a field that is not given keeps its value. -/
structure AfterToolCallOverride where
  content : Option (List ToolResultContentBlock) := none
  details : Value := .none
  isError : Option Bool := none
  usage : Option Usage := none
  terminate : Option Bool := none
deriving DecidableEq

/-- `_merge_override`. -/
def mergeOverride (current : ToolResult) : Option AfterToolCallOverride → ToolResult
  | none => current
  | some override =>
    { toolCallId := current.toolCallId
      toolName := current.toolName
      addedToolNames := current.addedToolNames
      content := override.content.getD current.content
      details := if override.details = .none then current.details else override.details
      isError := override.isError.getD current.isError
      usage := match override.usage with
        | none => current.usage
        | some usage => some usage
      terminate := override.terminate.getD current.terminate }

theorem mergeOverride_sameIdentity (current : ToolResult) (override : Option AfterToolCallOverride) :
    (mergeOverride current override).SameIdentity current := by
  cases override with
  | none => exact .refl current
  | some override => exact ⟨rfl, rfl, rfl⟩

/-! ## Listeners -/

section Event

variable {Signal ε : Type}

/-- Why a chain raised: a listener's own error, or a second call of `next`. -/
inductive PostExecuteError (ε : Type)
  | raised (error : ε)
  | waterfallError (message : String)

/-- `WaterfallError` of the listener with this index. -/
def nextReused (index : Nat) : PostExecuteError ε :=
  .waterfallError
    s!"`next` may be called at most once per listener (event 'tools/post-execute', listener index {index})"

/-- What a listener is called with before `next`: the result and the signal. -/
abbrev PostExecutePayload (Signal : Type) : Type := ToolResult × Option Signal

/-- What a listener gives `next`: a result, and whatever it put after it. -/
abbrev PostExecuteReplacement (Signal : Type) : Type := ToolResult × List (Option Signal)

/-- A listener's callback. -/
abbrev PostExecuteCallback (Signal ε : Type) : Type :=
  PostExecutePayload Signal → Middleware (PostExecuteReplacement Signal) ToolResult (PostExecuteError ε)

/-- `_Listener`. -/
structure PostExecuteListener (Signal ε : Type) where
  callback : PostExecuteCallback Signal ε
  scope : Option ScopeKey

/-- `ScopeKey.chain` above a key: the ancestors, nearest first. -/
def ScopeKey.chainOf : List String → List ScopeKey
  | [] => []
  | name :: ancestors => { name, ancestors } :: chainOf ancestors

/-- `ScopeKey.chain`. -/
def ScopeKey.chain (key : ScopeKey) : List ScopeKey := ScopeKey.chainOf key.path

/-- `EventBus._admits`. -/
def admits (listenerScope dispatchScope : Option ScopeKey) : Bool :=
  match listenerScope, dispatchScope with
  | none, _ => true
  | some _, none => false
  | some listenerScope, some dispatchScope => dispatchScope.chain.contains listenerScope

/-- `EventBus.on`. -/
def onPostExecute (listeners : List (PostExecuteListener Signal ε)) (listener : PostExecuteListener Signal ε)
    (prepend : Bool) : List (PostExecuteListener Signal ε) :=
  if prepend then listener :: listeners else listeners ++ [listener]

/-- `EventBus._chain`. -/
def postExecuteChain (listeners : List (PostExecuteListener Signal ε)) (scope : Option ScopeKey) :
    List (PostExecuteCallback Signal ε) :=
  (listeners.filter fun listener => admits listener.scope scope).map PostExecuteListener.callback

/-- `AfterToolCallHook`.  One that does not want the signal does not read it. -/
abbrev AfterToolCallHook (Signal ε : Type) : Type :=
  ToolResult → Option Signal → Except ε (Option AfterToolCallOverride)

/-- The result as a hook leaves it. -/
def AfterToolCallHook.apply (hook : AfterToolCallHook Signal ε) (signal : Option Signal) (result : ToolResult) :
    Except (PostExecuteError ε) ToolResult :=
  match hook result signal with
  | .ok override => .ok (mergeOverride result override)
  | .error e => .error (.raised e)

/-- The listener that `register_after_tool_call_hook` registers for a hook. -/
def hookListener (hook : AfterToolCallHook Signal ε) : PostExecuteCallback Signal ε :=
  Middleware.transform fun payload => (hook.apply payload.2 payload.1).map fun merged => (merged, [])

/-- `register_after_tool_call_hook`. -/
def registerAfterToolCallHook (listeners : List (PostExecuteListener Signal ε))
    (entry : AfterToolCallHook Signal ε × Option ScopeKey) : List (PostExecuteListener Signal ε) :=
  onPostExecute listeners { callback := hookListener entry.1, scope := entry.2 } false

/-! ## The dispatch -/

/-- `_restore`. -/
def restore (executed : ToolResult) (signal : Option Signal) (current : PostExecuteReplacement Signal) :
    PostExecutePayload Signal :=
  let candidate := current.1
  if candidate.toolCallId = executed.toolCallId ∧ candidate.toolName = executed.toolName
      ∧ candidate.addedToolNames = executed.addedToolNames then
    (candidate, signal)
  else
    ({ toolCallId := executed.toolCallId
       toolName := executed.toolName
       addedToolNames := executed.addedToolNames
       content := candidate.content
       details := candidate.details
       isError := candidate.isError
       usage := candidate.usage
       terminate := candidate.terminate }, signal)

/-- `next` without a replacement forwards what the listener was called with. -/
def forwardPayload (current : PostExecutePayload Signal) : PostExecuteReplacement Signal := (current.1, [current.2])

/-- The normalization of a dispatch keeps no state. -/
def restoreStep (executed : ToolResult) (signal : Option Signal) (_ : Unit) (current : PostExecuteReplacement Signal) :
    PostExecutePayload Signal × Unit :=
  (restore executed signal current, ())

/-- The `waterfall` of `_finalize`. -/
def postExecute (chain : List (PostExecuteCallback Signal ε)) (executed : ToolResult) (signal : Option Signal) :
    Waterfall (PostExecutePayload Signal) ToolResult (PostExecuteError ε) Unit :=
  Waterfall.dispatch forwardPayload (restoreStep executed signal) Prod.fst nextReused chain 0 (executed, signal) ()

/-- `_finalize`. -/
def finalize (listeners : List (PostExecuteListener Signal ε)) (scope : Option ScopeKey) (executed : ToolResult)
    (signal : Option Signal) : Except (PostExecuteError ε) ToolResult :=
  match (postExecute (postExecuteChain listeners scope) executed signal).outcome with
  | .error e => .error e
  | .ok transformed =>
    .ok { toolCallId := executed.toolCallId
          toolName := executed.toolName
          addedToolNames := executed.addedToolNames
          content := transformed.content
          details := transformed.details
          isError := transformed.isError
          usage := transformed.usage
          terminate := transformed.terminate }

/-- The value at which a chain ends whose listeners return what `next` gave
them: that of the first listener that does not delegate, or the result as
delegated by the last one. -/
def postExecuteTurn (chain : List (PostExecuteCallback Signal ε)) (executed : ToolResult) (signal : Option Signal) :
    Except (PostExecuteError ε) ToolResult :=
  Waterfall.turn forwardPayload (restoreStep executed signal) Prod.fst chain (executed, signal) ()

/-! ## What is kept -/

/-- The payload is about the executed result and carries the run's signal. -/
structure Authentic (executed : ToolResult) (signal : Option Signal) (payload : PostExecutePayload Signal) : Prop where
  identity : payload.1.SameIdentity executed
  signal : payload.2 = signal

theorem restore_authentic (executed : ToolResult) (signal : Option Signal) (current : PostExecuteReplacement Signal) :
    Authentic executed signal (restore executed signal current) := by
  rw [restore]
  split
  case isTrue h => exact ⟨⟨h.1, h.2.1, h.2.2⟩, rfl⟩
  case isFalse => exact ⟨⟨rfl, rfl, rfl⟩, rfl⟩

/-- A replacement that is about the executed result is handed on as it is. -/
theorem restore_of_sameIdentity {executed : ToolResult} {current : PostExecuteReplacement Signal}
    (h : current.1.SameIdentity executed) (signal : Option Signal) :
    restore executed signal current = (current.1, signal) := by
  rw [restore]
  exact if_pos ⟨h.toolCallId, h.toolName, h.addedToolNames⟩

theorem postExecute_observed (chain : List (PostExecuteCallback Signal ε)) (executed : ToolResult)
    (signal : Option Signal) :
    ∀ payload ∈ (postExecute chain executed signal).observed, Authentic executed signal payload :=
  Waterfall.observed_of_normalize (fun _ => restore_authentic executed signal) chain 0 ⟨.refl executed, rfl⟩ ()

/-- `_finalize` returns what the chain returned, under the executed result's
identity. -/
theorem finalize_eq_ok {listeners : List (PostExecuteListener Signal ε)} {scope : Option ScopeKey}
    {executed result : ToolResult} {signal : Option Signal}
    (h : finalize listeners scope executed signal = .ok result) :
    result.SameIdentity executed ∧
      ∃ value, (postExecute (postExecuteChain listeners scope) executed signal).outcome = .ok value ∧
        result.SameOutcome value := by
  rw [finalize] at h
  cases houtcome : (postExecute (postExecuteChain listeners scope) executed signal).outcome with
  | error e => simp [houtcome] at h
  | ok value =>
    simp only [houtcome, Except.ok.injEq] at h
    subst h
    exact ⟨⟨rfl, rfl, rfl⟩, value, rfl, ⟨rfl, rfl, rfl, rfl, rfl⟩⟩

/-- Where the listeners return what `next` gave them, the chain ends with the
value at which it turned. -/
theorem postExecute_of_passesBack {chain : List (PostExecuteCallback Signal ε)}
    (h : ∀ listener ∈ chain, Middleware.PassesBack listener) (executed : ToolResult) (signal : Option Signal) :
    (postExecute chain executed signal).outcome = postExecuteTurn chain executed signal :=
  Waterfall.outcome_of_passesBack h 0 _ _

/-- One hook's round of the fold, when the chain has reached a result about
the executed one. -/
theorem transformStep_hook {executed current : ToolResult} (h : current.SameIdentity executed)
    (signal : Option Signal) (hook : AfterToolCallHook Signal ε) :
    Waterfall.transformStep (restoreStep executed signal) ((current, signal), ())
        (fun payload => (hook.apply payload.2 payload.1).map fun merged => (merged, [])) =
      (hook.apply signal current).map fun merged => ((merged, signal), ()) := by
  rw [Waterfall.transformStep, AfterToolCallHook.apply]
  cases hook current signal with
  | error e => rfl
  | ok override =>
    have hkept : (mergeOverride current override).SameIdentity executed :=
      (mergeOverride_sameIdentity current override).trans h
    simp only [Except.map, restoreStep]
    rw [restore_of_sameIdentity hkept]

/-- The fold over hooks, from any result about the executed one. -/
theorem foldlM_hooks {executed : ToolResult} (signal : Option Signal) (hooks : List (AfterToolCallHook Signal ε))
    {current : ToolResult} (h : current.SameIdentity executed) :
    ((hooks.map fun hook payload => (hook.apply payload.2 payload.1).map fun merged => (merged, [])).foldlM
        (Waterfall.transformStep (restoreStep executed signal)) ((current, signal), ())).map
          (fun reached => reached.1.1) =
      hooks.foldlM (fun result hook => hook.apply signal result) current := by
  induction hooks generalizing current with
  | nil => rfl
  | cons hook hooks ih =>
    rw [List.map_cons, List.foldlM_cons, List.foldlM_cons, transformStep_hook h, AfterToolCallHook.apply]
    cases hook current signal with
    | error e => rfl
    | ok override => exact ih ((mergeOverride_sameIdentity current override).trans h)

/-- A chain of hooks folds their overrides into the executed result. -/
theorem postExecute_hooks (hooks : List (AfterToolCallHook Signal ε)) (executed : ToolResult) (signal : Option Signal) :
    (postExecute (hooks.map hookListener) executed signal).outcome =
      hooks.foldlM (fun result hook => hook.apply signal result) executed := by
  have hlisteners : hooks.map hookListener = (hooks.map fun hook payload =>
      (hook.apply payload.2 payload.1).map fun merged => (merged, [])).map Middleware.transform := by
    rw [List.map_map]
    rfl
  rw [postExecute, hlisteners, Waterfall.outcome_transform]
  exact foldlM_hooks signal hooks (.refl executed)

/-- Hooks return a result about the one they were given. -/
theorem foldlM_hooks_sameIdentity (signal : Option Signal) (hooks : List (AfterToolCallHook Signal ε))
    {current result : ToolResult}
    (h : hooks.foldlM (fun result hook => hook.apply signal result) current = .ok result) :
    result.SameIdentity current := by
  induction hooks generalizing current with
  | nil =>
    cases h
    exact .refl _
  | cons hook hooks ih =>
    rw [List.foldlM_cons, AfterToolCallHook.apply] at h
    cases hhook : hook current signal with
    | error e =>
      rw [hhook] at h
      cases h
    | ok override =>
      rw [hhook] at h
      exact (ih h).trans (mergeOverride_sameIdentity current override)

/-- `_finalize` returns what the hooks leave. -/
theorem finalize_hooks {listeners : List (PostExecuteListener Signal ε)} {scope : Option ScopeKey}
    {hooks : List (AfterToolCallHook Signal ε)} (h : postExecuteChain listeners scope = hooks.map hookListener)
    (executed : ToolResult) (signal : Option Signal) :
    finalize listeners scope executed signal = hooks.foldlM (fun result hook => hook.apply signal result) executed := by
  rw [finalize, h, postExecute_hooks]
  cases hfold : hooks.foldlM (fun result hook => hook.apply signal result) executed with
  | error e => rfl
  | ok result =>
    obtain ⟨hid, hname, hadded⟩ := foldlM_hooks_sameIdentity signal hooks hfold
    simp only [← hid, ← hname, ← hadded]

theorem postExecuteChain_registerAfterToolCallHook (listeners : List (PostExecuteListener Signal ε))
    (entry : AfterToolCallHook Signal ε × Option ScopeKey) (scope : Option ScopeKey) :
    postExecuteChain (registerAfterToolCallHook listeners entry) scope =
      postExecuteChain listeners scope ++ (if admits entry.2 scope then [hookListener entry.1] else []) := by
  rw [registerAfterToolCallHook, onPostExecute, postExecuteChain, if_neg (by simp), List.filter_append, List.map_append]
  congr 1
  rw [List.filter_singleton]
  cases admits entry.2 scope <;> rfl

/-- Hooks are in the chain in the order in which they were registered. -/
theorem postExecuteChain_hooks (entries : List (AfterToolCallHook Signal ε × Option ScopeKey))
    (listeners : List (PostExecuteListener Signal ε)) (scope : Option ScopeKey) :
    postExecuteChain (entries.foldl registerAfterToolCallHook listeners) scope =
      postExecuteChain listeners scope ++
        ((entries.filter fun entry => admits entry.2 scope).map Prod.fst).map hookListener := by
  induction entries generalizing listeners with
  | nil => simp
  | cons entry entries ih =>
    rw [List.foldl_cons, ih, postExecuteChain_registerAfterToolCallHook, List.filter_cons]
    cases admits entry.2 scope with
    | true => simp
    | false => simp

end Event

end MinionAgent
