import MinionAgent.Tools.PostExecute

/-!
# MinionAgent.Tools.RustPostExecute

The same event in the Rust binding (`tools/execution.rs` over
`EventBus::waterfall_normalized`).  The normalization keeps the result of the
step before: a candidate without details, usage or a termination takes them
from it (`normalizeSuccessfulAfterResult`).  A chain that fails leaves an error
result in place of the executed one.
-/

namespace MinionAgent

/-! ## Results -/

namespace Rust

/-- `ResultString`: UTF-16 code units. -/
abbrev ResultString : Type := List UInt16

/-- `str::encode_utf16` of one character. -/
def encodeUtf16Char (c : Char) : List UInt16 :=
  if c.toNat < 0x10000 then [c.toNat.toUInt16]
  else [(0xD800 + (c.toNat - 0x10000) / 0x400).toUInt16, (0xDC00 + (c.toNat - 0x10000) % 0x400).toUInt16]

/-- `ResultString::from` of a `str`. -/
def resultString (s : String) : ResultString := s.toList.flatMap encodeUtf16Char

/-- `ResultValue`; a number is the bits of its `f64`. -/
inductive ResultValue
  | null
  | bool (b : Bool)
  | number (bits : UInt64)
  | string (s : ResultString)
  | array (values : List ResultValue)
  | object (values : List (ResultString × ResultValue))

/-- `ResultValue::is_null`. -/
def ResultValue.isNull : ResultValue → Bool
  | null => true
  | _ => false

/-- `ToolResultContentBlock`. -/
inductive ToolResultContentBlock
  | text (text : ResultString) (textSignature : Option String := none)
  | image (block : ImageBlock)

/-- `AfterToolCallResult`. -/
structure AfterToolCallResult where
  toolCallId : String
  toolName : String
  content : List ToolResultContentBlock
  details : Option ResultValue
  usage : Option Usage
  addedToolNames : Option (List String)
  isError : Bool
  terminate : Option Bool

/-- What a result says it is the result of. -/
structure AfterToolCallResult.SameIdentity (result executed : AfterToolCallResult) : Prop where
  toolCallId : result.toolCallId = executed.toolCallId
  toolName : result.toolName = executed.toolName
  addedToolNames : result.addedToolNames = executed.addedToolNames

/-- `AfterToolCallContext`. -/
structure AfterToolCallContext (Signal : Type) where
  result : AfterToolCallResult
  signal : Option Signal

/-! ## The dispatch -/

/-- `WaterfallError`. -/
inductive WaterfallError
  | nextAlreadyCalled
  | listenerFailed (message : String)
  | listenerFailedUtf16 (message : ResultString)

/-- `restore_protected`. -/
def restoreProtected (candidate authoritative : AfterToolCallResult) : AfterToolCallResult :=
  { candidate with
    toolCallId := authoritative.toolCallId
    toolName := authoritative.toolName
    addedToolNames := authoritative.addedToolNames }

/-- `normalize_successful_after_result`. -/
def normalizeSuccessfulAfterResult (candidate previous authoritative : AfterToolCallResult) : AfterToolCallResult :=
  restoreProtected
    { candidate with
      details := if candidate.details.all ResultValue.isNull then previous.details else candidate.details
      usage := match candidate.usage with
        | none => previous.usage
        | some usage => some usage
      terminate := match candidate.terminate with
        | none => previous.terminate
        | some terminate => some terminate }
    authoritative

section Event

variable {Signal : Type}

/-- A listener's callback. -/
abbrev AfterToolCallCallback (Signal : Type) : Type :=
  AfterToolCallContext Signal → Middleware (AfterToolCallContext Signal) AfterToolCallResult WaterfallError

/-- The `normalize_step` of the dispatch. -/
def normalizeStep (executed : AfterToolCallResult) (hookSignal : Option Signal) (previous : AfterToolCallResult)
    (candidate : AfterToolCallContext Signal) : AfterToolCallContext Signal × AfterToolCallResult :=
  let normalized := normalizeSuccessfulAfterResult candidate.result previous executed
  ({ result := normalized, signal := hookSignal }, normalized)

/-- The `waterfall_normalized` of a prepared call. -/
def postExecute (chain : List (AfterToolCallCallback Signal)) (executed : AfterToolCallResult)
    (hookSignal : Option Signal) :
    Waterfall (AfterToolCallContext Signal) AfterToolCallResult WaterfallError AfterToolCallResult :=
  Waterfall.dispatch id (normalizeStep executed hookSignal) AfterToolCallContext.result
    (fun _ => .nextAlreadyCalled) chain 0 { result := executed, signal := hookSignal } executed

/-- `WaterfallError`'s text. -/
def WaterfallError.text : WaterfallError → ResultString
  | nextAlreadyCalled => resultString "waterfall `next` may be called at most once per listener"
  | listenerFailed message => resultString message
  | listenerFailedUtf16 message => message

/-- `immediate_error`. -/
def immediateError (toolCallId toolName : String) (message : ResultString) : AfterToolCallResult where
  toolCallId := toolCallId
  toolName := toolName
  content := [.text message]
  details := some (.object [])
  usage := none
  addedToolNames := none
  isError := true
  terminate := none

/-- `finalized` of `execute_and_finalize_prepared`. -/
def finalizePrepared (chain : List (AfterToolCallCallback Signal)) (toolCallId toolName : String)
    (executed : AfterToolCallResult) (hookSignal : Option Signal) : AfterToolCallResult :=
  let run := postExecute chain executed hookSignal
  match run.outcome with
  | .ok finalized => normalizeSuccessfulAfterResult finalized run.state executed
  | .error e => immediateError toolCallId toolName e.text

/-! ## What is kept -/

theorem normalizeSuccessfulAfterResult_sameIdentity (candidate previous authoritative : AfterToolCallResult) :
    (normalizeSuccessfulAfterResult candidate previous authoritative).SameIdentity authoritative :=
  ⟨rfl, rfl, rfl⟩

/-- The payload is about the executed result and carries the run's signal. -/
structure Authentic (executed : AfterToolCallResult) (hookSignal : Option Signal)
    (payload : AfterToolCallContext Signal) : Prop where
  identity : payload.result.SameIdentity executed
  signal : payload.signal = hookSignal

theorem postExecute_observed (chain : List (AfterToolCallCallback Signal)) (executed : AfterToolCallResult)
    (hookSignal : Option Signal) :
    ∀ payload ∈ (postExecute chain executed hookSignal).observed, Authentic executed hookSignal payload :=
  Waterfall.observed_of_normalize
    (fun previous candidate => ⟨normalizeSuccessfulAfterResult_sameIdentity candidate.result previous executed, rfl⟩)
    chain 0 ⟨⟨rfl, rfl, rfl⟩, rfl⟩ executed

/-- A chain that does not fail leaves a result about the executed one. -/
theorem finalizePrepared_sameIdentity {chain : List (AfterToolCallCallback Signal)} {toolCallId toolName : String}
    {executed value : AfterToolCallResult} {hookSignal : Option Signal}
    (h : (postExecute chain executed hookSignal).outcome = .ok value) :
    (finalizePrepared chain toolCallId toolName executed hookSignal).SameIdentity executed := by
  simp only [finalizePrepared, h]
  exact normalizeSuccessfulAfterResult_sameIdentity _ _ _

end Event

end Rust

/-! ## Both bindings -/

/-- No listener changes whose result it is that the others see and that the
call returns. -/
theorem post_execute_identity_kept {Signal ε : Type} :
    (∀ (listeners : List (PostExecuteListener Signal ε)) (scope : Option ScopeKey) (executed : ToolResult)
        (signal : Option Signal),
      (∀ payload ∈ (postExecute (postExecuteChain listeners scope) executed signal).observed,
        payload.1.SameIdentity executed ∧ payload.2 = signal) ∧
      ∀ result, finalize listeners scope executed signal = .ok result →
        result.SameIdentity executed ∧
        (∃ value, (postExecute (postExecuteChain listeners scope) executed signal).outcome = .ok value ∧
          result.SameOutcome value) ∧
        ((∀ listener ∈ postExecuteChain listeners scope, Middleware.PassesBack listener) →
          ∃ value, postExecuteTurn (postExecuteChain listeners scope) executed signal = .ok value ∧
            result.SameOutcome value)) ∧
    (∀ (entries : List (AfterToolCallHook Signal ε × Option ScopeKey)) (scope : Option ScopeKey),
      postExecuteChain (entries.foldl registerAfterToolCallHook []) scope =
        ((entries.filter fun entry => admits entry.2 scope).map Prod.fst).map hookListener) ∧
    (∀ (listeners : List (PostExecuteListener Signal ε)) (scope : Option ScopeKey) (executed : ToolResult)
        (signal : Option Signal) (hooks : List (AfterToolCallHook Signal ε)),
      postExecuteChain listeners scope = hooks.map hookListener →
      (postExecute (postExecuteChain listeners scope) executed signal).outcome =
          hooks.foldlM (fun result hook => hook.apply signal result) executed ∧
        finalize listeners scope executed signal =
          hooks.foldlM (fun result hook => hook.apply signal result) executed) ∧
    (∀ (chain : List (Rust.AfterToolCallCallback Signal)) (toolCallId toolName : String)
        (executed : Rust.AfterToolCallResult) (hookSignal : Option Signal),
      (∀ payload ∈ (Rust.postExecute chain executed hookSignal).observed,
        payload.result.SameIdentity executed ∧ payload.signal = hookSignal) ∧
      ∀ value, (Rust.postExecute chain executed hookSignal).outcome = .ok value →
        (Rust.finalizePrepared chain toolCallId toolName executed hookSignal).SameIdentity executed) := by
  refine ⟨?listeners, ?registered, ?hooks, ?rust⟩
  case listeners =>
    intro listeners scope executed signal
    refine ⟨fun payload hpayload => ?_, fun result hresult => ?_⟩
    · have hauthentic := postExecute_observed _ executed signal payload hpayload
      exact ⟨hauthentic.identity, hauthentic.signal⟩
    · obtain ⟨hidentity, value, houtcome, hvalue⟩ := finalize_eq_ok hresult
      refine ⟨hidentity, ⟨value, houtcome, hvalue⟩, fun hpasses => ⟨value, ?_, hvalue⟩⟩
      rw [← postExecute_of_passesBack hpasses, houtcome]
  case registered =>
    intro entries scope
    rw [postExecuteChain_hooks]
    simp [postExecuteChain]
  case hooks =>
    intro listeners scope executed signal hooks hchain
    exact ⟨by rw [hchain, postExecute_hooks], finalize_hooks hchain executed signal⟩
  case rust =>
    intro chain toolCallId toolName executed hookSignal
    refine ⟨fun payload hpayload => ?_, fun value houtcome => Rust.finalizePrepared_sameIdentity houtcome⟩
    have hauthentic := Rust.postExecute_observed chain executed hookSignal payload hpayload
    exact ⟨hauthentic.identity, hauthentic.signal⟩

/-- A listener that delegates a failure of another call, under no signal. -/
def forger : PostExecuteListener Nat Unit where
  callback := fun payload => .next (some ({ payload.1 with toolCallId := "forged", isError := true }, [none])) .ends
  scope := none

/-- A listener that reports the call it sees. -/
def reporter : PostExecuteListener Nat Unit where
  callback := fun payload =>
    .next (some ({ payload.1 with details := .dict [("id", .str payload.1.toolCallId)] }, [])) .ends
  scope := none

/-- A hook that asks for termination. -/
def terminator : AfterToolCallHook Nat Unit := fun _ _ => .ok (some { terminate := some true })

/-- The result of a call of `read`. -/
def executedRead : ToolResult := { toolCallId := "call_1", content := [], toolName := "read" }

/-- The same in the Rust binding. -/
def Rust.executedRead : Rust.AfterToolCallResult where
  toolCallId := "call_1"
  toolName := "read"
  content := []
  details := none
  usage := none
  addedToolNames := none
  isError := false
  terminate := none

theorem post_execute_identity_kept_forged :
    ToolResult.SameIdentity { executedRead with isError := true } executedRead ∧
    (∃ value, (postExecute (postExecuteChain [forger, reporter] none) executedRead (some 1)).outcome = .ok value ∧
      ToolResult.SameOutcome { executedRead with isError := true, details := .dict [("id", .str "call_1")] } value) ∧
    (∃ value, postExecuteTurn (postExecuteChain [forger, reporter] none) executedRead (some 1) = .ok value ∧
      ToolResult.SameOutcome { executedRead with isError := true, details := .dict [("id", .str "call_1")] } value) ∧
    finalize [{ callback := hookListener terminator, scope := none }] none executedRead (some 1) =
      [terminator].foldlM (fun result hook => hook.apply (some 1) result) executedRead ∧
    (Rust.finalizePrepared [] "call_1" "read" Rust.executedRead (none : Option Nat)).SameIdentity
      Rust.executedRead := by
  obtain ⟨hlisteners, -, hhooks, hrust⟩ := @post_execute_identity_kept Nat Unit
  obtain ⟨hobserved, hfinal⟩ := hlisteners [forger, reporter] none executedRead (some 1)
  have hpasses : ∀ listener ∈ postExecuteChain [forger, reporter] none, Middleware.PassesBack listener := by
    intro listener hin payload replacement resume h
    rcases List.mem_pair.mp hin with rfl | rfl
    · cases h
      rfl
    · cases h
      rfl
  obtain ⟨-, hvalue, hturn⟩ :=
    hfinal { executedRead with isError := true, details := .dict [("id", .str "call_1")] } rfl
  have hsecond : ({ executedRead with isError := true }, some 1) ∈
      (postExecute (postExecuteChain [forger, reporter] none) executedRead (some 1)).observed :=
    List.mem_cons_of_mem _ List.mem_cons_self
  exact ⟨(hobserved _ hsecond).1, hvalue, hturn hpasses,
    (hhooks [{ callback := hookListener terminator, scope := none }] none executedRead (some 1) [terminator] rfl).2,
    (hrust [] "call_1" "read" Rust.executedRead none).2 Rust.executedRead rfl⟩

end MinionAgent
