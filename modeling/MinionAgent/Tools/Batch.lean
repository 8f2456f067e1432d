import MinionAgent.Library.Transition
import MinionAgent.Tools.Execute

/-!
# MinionAgent.Tools.Batch

The calls of one reply (`tools/batch.py`): `execute_batch`, one call after the
other or with the executions side by side, and `execute_length_stop_batch`.

A batch is a machine whose events come in any order that the source allows;
`Batch.items` is what it emits and awaits, calls by their positions.

* `isSequential` — the contagion rule;
* `Batch.step` — one event;
* `Batch.outcome?` — what is returned once every call is done.
-/

namespace MinionAgent

/-- `ExecutionMode`. -/
inductive ExecutionMode
  | parallel
  | sequential
deriving DecidableEq

/-- `_is_sequential`.  A tool that is not found has no mode. -/
def isSequential (modeOf : String → Option ExecutionMode) (defaultMode : ExecutionMode) (calls : List ToolCallBlock) :
    Bool :=
  defaultMode == .sequential || calls.any fun call => modeOf call.name == some .sequential

/-- How a batch goes. -/
inductive BatchMode
  | sequential
  | parallel
  /-- `execute_length_stop_batch`. -/
  | lengthStop
deriving DecidableEq

/-- `BatchOutcome`. -/
structure BatchOutcome where
  results : List ToolResult
  completionOrder : List String
  terminate : Bool
deriving DecidableEq

/-- `completion_index`. -/
def BatchOutcome.completionIndex (outcome : BatchOutcome) (callId : String) : ℕ :=
  outcome.completionOrder.idxOf callId

/-- Where a call of a batch is. -/
inductive CallStage
  /-- Its start was emitted, and its preflight is under way. -/
  | preflight
  | prepared
  | executing
  /-- `execute` is over; its updates and the after-hook are not. -/
  | executed (result : ToolResult)
  /-- Its end was emitted, and `on_execution_end` is under way. -/
  | ending (result : ToolResult)
  | completed (result : ToolResult)
deriving DecidableEq

/-- The result of a call that is done. -/
@[grind] def CallStage.completed? : CallStage → Option ToolResult
  | .completed result => some result
  | _ => none

/-- What a batch emits and awaits, the invocation of `execute`, and where a
call joins the completion order. -/
inductive BatchItem
  | started (i : ℕ)
  | executing (i : ℕ)
  | updated (i : ℕ) (report : ToolPartialResult)
  | ended (i : ℕ) (result : ToolResult)
  | completed (i : ℕ)
deriving DecidableEq

/-- The call that an item is about. -/
@[grind] def BatchItem.call : BatchItem → ℕ
  | .started i | .executing i | .updated i _ | .ended i _ | .completed i => i

/-- What happens next.  `aborted` is the signal where the source reads it. -/
inductive BatchEvent
  /-- The loop goes on to the next call. -/
  | start
  | decide (i : ℕ) (aborted : Bool) (answer : PreflightAnswer)
  /-- The loop is over, and the prepared calls begin. -/
  | gather
  | execute (i : ℕ)
  | update (i : ℕ) (report : ToolPartialResult)
  | settle (i : ℕ) (answer : ExecuteAnswer)
  | finish (i : ℕ) (after : Except String ToolResult)
  | complete (i : ℕ) (aborted : Bool)

/-- A batch: the stages of the calls that the loop has reached, in source
order. -/
structure Batch where
  calls : List ToolCallBlock
  mode : BatchMode
  stages : List CallStage := []
  /-- The loop saw the signal aborted. -/
  stopped : Bool := false
  gathered : Bool := false
  completion : List String := []
  items : List BatchItem := []

namespace Batch

/-- A call enters a stage, with what is emitted then. -/
def enter (s : Batch) (i : ℕ) (stage : CallStage) (items : List BatchItem) : Batch :=
  { s with stages := s.stages.set i stage, items := s.items ++ items }

/-- The loop is where it goes on to the next call. -/
def atHead (s : Batch) : Bool :=
  s.stages.all fun stage => stage.completed?.isSome || s.mode == .parallel && stage == .prepared

/-- The loop has gone through the calls, or was stopped. -/
def loopOver (s : Batch) : Bool := s.atHead && (s.stopped || s.stages.length == s.calls.length)

/-- What comes of a preflight. -/
def decide (s : Batch) (call : ToolCallBlock) (aborted : Bool) (answer : PreflightAnswer) : Preflighted :=
  if s.mode = .lengthStop then .immediate (lengthStopResult call) else preflight call aborted answer

/-- What happens to one call. -/
def callStep (s : Batch) (i : ℕ) (call : ToolCallBlock) : CallStage → BatchEvent → Option Batch
  | .preflight, .decide _ aborted answer =>
    match s.decide call aborted answer with
    | .immediate result => some (s.enter i (.ending result) [.ended i result])
    -- a parallel batch looks at the signal before the next preflight
    | .prepared _ => some { s.enter i .prepared [] with stopped := s.stopped || s.mode == .parallel && aborted }
  | .prepared, .execute _ =>
    if s.mode = .parallel ∧ s.gathered = false then none else some (s.enter i .executing [.executing i])
  | .executing, .update _ report => some (s.enter i .executing [.updated i report])
  | .executing, .settle _ answer => some (s.enter i (.executed (executedResult call answer)) [])
  | .executed result, .finish _ after =>
    let result := finalizedResult call result after
    some (s.enter i (.ending result) [.ended i result])
  | .ending result, .complete _ aborted =>
    some { s.enter i (.completed result) [.completed i] with
      completion := s.completion ++ [result.toolCallId]
      -- the loop is behind this call, unless the calls run side by side
      stopped := s.stopped || s.mode != .lengthStop && !s.gathered && aborted }
  | _, _ => none

end Batch

/-- The call an event is about. -/
def BatchEvent.call? : BatchEvent → Option ℕ
  | .decide i _ _ | .execute i | .update i _ | .settle i _ | .finish i _ | .complete i _ => some i
  | .start | .gather => none

/-- The signal was aborted where an event reads it. -/
def BatchEvent.aborted : BatchEvent → Bool
  | .decide _ aborted _ | .complete _ aborted => aborted
  | _ => false

namespace Batch

/-- One event. -/
def step (s : Batch) : BatchEvent → Option Batch
  | .start =>
    if s.atHead ∧ s.stopped = false ∧ s.stages.length < s.calls.length then
      some { s with stages := s.stages ++ [.preflight], items := s.items ++ [.started s.stages.length] }
    else
      none
  | .gather => if s.mode = .parallel ∧ s.gathered = false ∧ s.loopOver then some { s with gathered := true } else none
  | event => do
    let i ← event.call?
    let stage ← s.stages[i]?
    let call ← s.calls[i]?
    s.callStep i call stage event

/-- Every call that the loop reached is done. -/
def done (s : Batch) : Bool :=
  s.loopOver && (s.mode != .parallel || s.gathered) && s.stages.all fun stage => stage.completed?.isSome

/-- `results`, in source order. -/
def results (s : Batch) : List ToolResult := s.stages.filterMap CallStage.completed?

/-- What is returned. -/
def outcome? (s : Batch) : Option BatchOutcome :=
  if s.done then
    some {
      results := s.results
      completionOrder := s.completion
      terminate := s.mode != .lengthStop && !s.results.isEmpty && s.results.all ToolResult.terminate }
  else
    none

/-- The batch after a list of events. -/
def run (calls : List ToolCallBlock) (mode : BatchMode) (es : List BatchEvent) : Option Batch :=
  Transition.run step { calls, mode } es

end Batch

end MinionAgent
