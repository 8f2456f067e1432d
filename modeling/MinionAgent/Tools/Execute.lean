import MinionAgent.Tools.PostExecute

/-!
# MinionAgent.Tools.Execute

One tool call, stage by stage (`tools/execute.py`, `tools/result.py`).

What the tool, its preparation, its validation and the listeners do is an
answer; each function here says which result an answer leads to.  The call
produces exactly one result, and it is about the call (`preflight_about`,
`executedResult_about`, `finalizedResult_about`).
-/

namespace MinionAgent

open Py

/-! ## Results -/

/-- `text_result`. -/
def textResult (callId text toolName : String) (isError : Bool := false) (terminate : Bool := false) : ToolResult where
  toolCallId := callId
  content := [.text { text }]
  toolName := toolName
  isError := isError
  terminate := terminate

/-- A field that is `None`, or any other value. -/
def presentOf (value : Value) : Option Present := if h : value = .none then none else some ⟨value, h⟩

/-- `to_message`, at the time `now`. -/
def ToolResult.toMessage (result : ToolResult) (now : Int) : ToolResultMessage where
  toolCallId := result.toolCallId
  content := result.content
  timestamp := now
  toolName := result.toolName
  isError := result.isError
  details := presentOf result.details
  usage := result.usage
  addedToolNames := if result.addedToolNames.isEmpty then none else some result.addedToolNames

/-- `ToolPartialResult`: a tool's own report while it runs. -/
structure ToolPartialResult where
  content : List ToolResultContentBlock
  details : Value
  usage : Option Usage := none
  addedToolNames : Option (List String) := none
  terminate : Option Bool := none
deriving DecidableEq

/-- A result is about a call. -/
structure ToolResult.About (result : ToolResult) (call : ToolCallBlock) : Prop where
  toolCallId : result.toolCallId = call.id
  toolName : result.toolName = call.name

theorem textResult_about (call : ToolCallBlock) (text : String) (isError terminate : Bool) :
    (textResult call.id text call.name isError terminate).About call := ⟨rfl, rfl⟩

/-! ## Before execution -/

/-- `PreExecuteDecision`. -/
inductive PreExecuteDecision
  | block (reason : String) (terminate : Bool)
  | proceed (arguments : List (String × Value))
deriving DecidableEq

/-- What comes of the resolution of a call, of its preparation and validation,
and of the listeners before it. -/
inductive PreflightAnswer
  | unknown
  /-- `ArgumentValidationError`. -/
  | invalid (message : String)
  /-- Any other `Exception`. -/
  | raised (message : String)
  | decided (decision : PreExecuteDecision)
deriving DecidableEq

/-- `_Prepared`, or the result of a call that is not executed. -/
inductive Preflighted
  | immediate (result : ToolResult)
  | prepared (arguments : List (String × Value))
deriving DecidableEq

/-- `_preflight`.  The signal is read once the listeners have decided, and
comes before their decision. -/
def preflight (call : ToolCallBlock) (aborted : Bool) : PreflightAnswer → Preflighted
  | .unknown => .immediate (textResult call.id s!"Tool {call.name} not found" call.name true)
  | .invalid message => .immediate (textResult call.id s!"invalid arguments: {message}" call.name true)
  | .raised message => .immediate (textResult call.id message call.name true)
  | .decided decision =>
    if aborted then
      .immediate (textResult call.id "Operation aborted" call.name true)
    else
      match decision with
      | .block reason terminate => .immediate (textResult call.id reason call.name true terminate)
      | .proceed arguments => .prepared arguments

/-- The result of a call of a reply that was cut off. -/
def lengthStopResult (call : ToolCallBlock) : ToolResult :=
  textResult call.id
    (s!"Tool call \"{call.name}\" was not executed: the response hit the output token " ++
      "limit, so its arguments may be truncated. Re-issue the tool call with complete arguments.") call.name true

theorem preflight_about {call : ToolCallBlock} {aborted : Bool} {answer : PreflightAnswer} {result : ToolResult}
    (h : preflight call aborted answer = .immediate result) : result.About call := by
  cases answer with
  | unknown | invalid message | raised message =>
    cases h
    exact textResult_about call _ _ _
  | decided decision =>
    simp only [preflight] at h
    split at h
    · cases h
      exact textResult_about call _ _ _
    · cases decision with
      | block reason terminate =>
        cases h
        exact textResult_about call _ _ _
      | proceed arguments => cases h

/-! ## Execution -/

/-- What `execute` comes to: an exception, a `ToolResult`, or any other value
by its text. -/
inductive ExecuteAnswer
  | raised (message : String)
  | result (value : ToolResult)
  | value (text : String)
deriving DecidableEq

/-- The result before the after-hook; the pipeline knows whose it is. -/
def executedResult (call : ToolCallBlock) : ExecuteAnswer → ToolResult
  | .raised message => textResult call.id message call.name true
  | .result value => { value with toolCallId := call.id, toolName := call.name }
  | .value text => textResult call.id text call.name

/-- The result after the after-hook.  An exception of the hook replaces it;
what the hook returned does not say whose result it is. -/
def finalizedResult (call : ToolCallBlock) (executed : ToolResult) : Except String ToolResult → ToolResult
  | .error message => textResult call.id message call.name true
  | .ok transformed =>
    { transformed with
      toolCallId := executed.toolCallId, toolName := executed.toolName, addedToolNames := executed.addedToolNames }

theorem executedResult_about (call : ToolCallBlock) (answer : ExecuteAnswer) :
    (executedResult call answer).About call := by
  cases answer <;> exact ⟨rfl, rfl⟩

theorem finalizedResult_about {call : ToolCallBlock} {executed : ToolResult} (h : executed.About call)
    (after : Except String ToolResult) : (finalizedResult call executed after).About call := by
  cases after with
  | error message => exact ⟨rfl, rfl⟩
  | ok transformed => exact ⟨h.toolCallId, h.toolName⟩

/-- `_finalize` is the after-hook whose result is finalized. -/
theorem finalizedResult_finalize {Signal ε : Type} {listeners : List (PostExecuteListener Signal ε)}
    {scope : Option ScopeKey} {executed result : ToolResult} {signal : Option Signal}
    (h : finalize listeners scope executed signal = .ok result) (call : ToolCallBlock) :
    finalizedResult call executed (.ok result) = result := by
  obtain ⟨⟨hid, hname, hadded⟩, -⟩ := finalize_eq_ok h
  rw [finalizedResult, ← hid, ← hname, ← hadded]

end MinionAgent
