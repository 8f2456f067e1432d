import MinionAgent.AgentLoop.Lookahead
import MinionAgent.Library.Transition

/-!
# MinionAgent.AgentLoop.EventGrammar

The language that a run speaks to its listeners (`agent/projection.py`, with
the words of `AgentEvent`).

What a run shows are its events, its requests and the chunks of their streams.
`Nesting.step` is a machine that reads them one by one: turns within the run,
one request within each turn, messages one after the other, tool executions
within the turn of their reply, and ends that carry what came before.

* `RunPhase`, `Nesting` — where a listener is in a run;
* `Nesting.step` — one thing shown;
* `settlementOf` — how a failure is shown.
-/

namespace MinionAgent

/-! ## What is shown -/

/-- What a run shows. -/
inductive Shown
  | requested (request : Request)
  | received (chunk : StreamChunk)
  | dispatched (event : AgentEvent)

def LoopAction.shown? : LoopAction → Option Shown
  | .own (.dispatch event) => some (.dispatched event)
  | .requested request => some (.requested request)
  | .received chunk => some (.received chunk)
  | _ => none

/-- What the actions of a run show. -/
def shown (actions : List LoopAction) : List Shown := actions.filterMap LoopAction.shown?

@[simp] theorem shown_nil : shown [] = [] := rfl

@[simp] theorem shown_append (actions actions' : List LoopAction) :
    shown (actions ++ actions') = shown actions ++ shown actions' :=
  List.filterMap_append

theorem shown_cons (action : LoopAction) (actions : List LoopAction) :
    shown (action :: actions) = (action.shown?).toList ++ shown actions := by
  rw [shown, List.filterMap_cons]
  cases action.shown? <;> rfl

/-- What is told of a run shows all that it shows. -/
theorem shown_told (actions : List LoopAction) : shown (told actions) = shown actions :=
  filterMap_told (fun _ _ => rfl) actions

/-! ## The machine -/

/-- The events that a chunk is relayed by. -/
def relayed (opened : Bool) : StreamChunk → List AgentEvent
  | .start message => [.messageStart (.assistant message)]
  | .update event => [.messageUpdate event (.assistant event.message)]
  | .done reply _ | .error _ reply _ =>
    (if opened then [] else [.messageStart (.assistant reply)]) ++ [.messageEnd (.assistant reply)]

/-- A chunk starts its message. -/
def opens : StreamChunk → Bool
  | .start _ => true
  | _ => false

/-- Where a listener is in a run. -/
inductive RunPhase
  | idle
  /-- The run has started, and no turn has. -/
  | opened
  /-- A turn is open, and its request is not made. -/
  | entering
  /-- The request is made; `owed` is what the last chunk is relayed by. -/
  | replying (opened : Bool) (owed : List AgentEvent)
  /-- The reply is there.  So many calls have started; `active` are those under
  way, `due` are the messages of the others, and `results` those that came. -/
  | acting (reply : AssistantMessage) (started : ℕ) (active : List (String × String)) (due : List ToolResultMessage)
      (results : List Message)
  | between
  /-- The turn of a failed reply is over. -/
  | failed (reply : AssistantMessage)
  | closed
deriving DecidableEq

/-- What a listener has read. -/
structure Nesting where
  phase : RunPhase := .idle
  /-- The message that has started and has not ended. -/
  current : Option Message := none
  messages : List Message := []
deriving DecidableEq

/-- A message of a result, at no time. -/
def ToolResultMessage.untimed (message : ToolResultMessage) : ToolResultMessage := { message with timestamp := 0 }

/-- A call, as it is shown. -/
def ToolCallBlock.execution (call : ToolCallBlock) : String × String × Py.Value :=
  (call.id, call.name, call.arguments.orderRaw)

namespace RunPhase

/-- A message may start. -/
def admits : RunPhase → Message → Bool
  | .entering, _ | .between, _ => true
  | .acting reply _ active due results, .toolResult message =>
    active.isEmpty && due.contains message.untimed &&
      (reply.toolCalls[results.length]?).any fun call => call.id == message.toolCallId
  | _, _ => false

/-- A message has ended. -/
def ended : RunPhase → Message → RunPhase
  | .acting reply started active due results, .toolResult message =>
    .acting reply started active (due.erase message.untimed) (results ++ [.toolResult message])
  | phase, _ => phase

/-- The run may end so. -/
def closes : RunPhase → String → Bool
  | .entering, reason => reason == "rejected"
  | .between, reason => ["rejected", "stopped", "terminated", "completed"].contains reason
  | .failed reply, reason => reason == reply.stopReason.value
  | _, _ => false

end RunPhase

namespace Nesting

/-- What is shown next. -/
def step (s : Nesting) (item : Shown) : Option Nesting :=
  match s.phase, s.current, item with
  | .idle, none, .dispatched (.agentStart _) => some { s with phase := .opened }
  | .opened, none, .dispatched .turnStart | .between, none, .dispatched .turnStart =>
    some { s with phase := .entering }
  | .entering, none, .requested _ => some { s with phase := .replying false [] }
  | .replying opened [], none, .received chunk =>
    some { s with phase := .replying (opened || opens chunk) (relayed opened chunk) }
  | .replying opened (owed :: rest), none, .dispatched event =>
    if owed = event then
      match event with
      -- the last event of a reply
      | .messageEnd (.assistant reply) =>
        some { s with phase := .acting reply 0 [] [] [], messages := s.messages ++ [.assistant reply] }
      | _ => some { s with phase := .replying opened rest }
    else
      none
  | phase, none, .dispatched (.messageStart message) =>
    if phase.admits message then some { s with current := some message } else none
  | phase, some message, .dispatched (.messageEnd message') =>
    if message = message' then
      some { phase := phase.ended message, current := none, messages := s.messages ++ [message] }
    else
      none
  | .acting reply started active due [], none, .dispatched (.toolExecutionStart id name arguments) =>
    if reply.failed = false ∧ (reply.toolCalls[started]?).map ToolCallBlock.execution = some (id, name, arguments) then
      some { s with phase := .acting reply (started + 1) (active ++ [(id, name)]) due [] }
    else
      none
  | .acting reply _ active _ [], none, .dispatched (.toolExecutionUpdate id name arguments _) =>
    if (id, name) ∈ active ∧ (reply.toolCalls.map ToolCallBlock.execution).contains (id, name, arguments) then some s
    else none
  | .acting reply started active due [], none, .dispatched (.toolExecutionEnd id name result isError) =>
    if (id, name) ∈ active ∧ result.toolCallId = id ∧ result.toolName = name ∧ result.isError = isError then
      some { s with phase := .acting reply started (active.erase (id, name)) (due ++ [result.toMessage 0]) [] }
    else
      none
  | .acting reply started [] [] results, none, .dispatched (.turnEnd message results') =>
    if message = some (.assistant reply) ∧ results' = results ∧ results.length = started then
      some { s with phase := if reply.failed then .failed reply else .between }
    else
      none
  | phase, none, .dispatched (.agentEnd reason _ messages) =>
    if phase.closes reason ∧ messages = s.messages then some { s with phase := .closed } else none
  | _, _, _ => none

/-- What a run has shown, from its start on. -/
abbrev reads (items : List Shown) : Option Nesting := Transition.run step {} items

end Nesting

/-- How a failure is shown. -/
def settlementOf (message : AssistantMessage) (causes : List Py.Value) : List Shown :=
  [.dispatched (.messageStart (.assistant message)), .dispatched (.messageEnd (.assistant message)),
    .dispatched (.turnEnd (some (.assistant message)) []), .dispatched (.agentEnd "failed" causes [.assistant message])]

/-! ## What scripts show -/

namespace Protocol

@[simp] theorem shown_dispatching (event : AgentEvent) : shown (coming (dispatching event)) = [.dispatched event] := rfl

@[simp] theorem shown_writing (action : AgentAction) (script : Script) :
    shown (coming (writing action :: script)) = shown (coming script) := rfl

@[simp] theorem shown_logging (entry : LoopEntry) (script : Script) :
    shown (coming (logging entry :: script)) = shown (coming script) := rfl

theorem shown_settling (s : RunState) (text : String) :
    shown (coming (settling s text)) = settlementOf (s.failureMessage text) s.causes := rfl

theorem shown_passing (message : Message) (entry : LoopEntry) :
    shown (coming (passing message entry)) =
      [.dispatched (.messageStart message), .dispatched (.messageEnd message)] := rfl

theorem shown_endingTurn (reply : AssistantMessage) (toolResults : List Message) :
    shown (coming (endingTurn reply toolResults)) = [.dispatched (.turnEnd (some (.assistant reply)) toolResults)] := by
  rw [endingTurn]
  split <;> rfl

theorem shown_finishing (reply : AssistantMessage) (opened : Bool) :
    shown (coming (finishing reply opened)) =
      ((if opened then [] else [AgentEvent.messageStart (.assistant reply)]) ++
        [AgentEvent.messageEnd (.assistant reply)]).map Shown.dispatched := by
  cases opened <;> rfl

theorem shown_toolCalls (calls : List ToolCallBlock) :
    shown (coming (calls.map fun call => logging (.toolCall call))) = [] := by
  induction calls with
  | nil => rfl
  | cons call calls ih => exact ih

theorem admitted_endingTurn (reply : AssistantMessage) (toolResults : List Message) :
    (coming (endingTurn reply toolResults)).filterMap LoopAction.admitted? = [] := by
  rw [endingTurn]
  split <;> rfl

theorem admitted_passing (message : Message) (entry : LoopEntry) :
    (coming (passing message entry)).filterMap LoopAction.admitted? = [message] := rfl

theorem admitted_admitting (messages : List Message) :
    (coming (admitting messages)).filterMap LoopAction.admitted? = messages := by
  induction messages with
  | nil => rfl
  | cons message messages ih =>
    rw [admitting, List.flatMap_cons, coming_append, List.filterMap_append, admitted_passing]
    exact congrArg _ ih

end Protocol

/-! ## Reading messages -/

namespace Nesting

open Protocol

/-- A message that is complete is read where it may start. -/
theorem run_passing {s : Nesting} {message : Message} (entry : LoopEntry) (hcurrent : s.current = none)
    (hreplying : ∀ opened owed, s.phase ≠ .replying opened owed) (hadmits : s.phase.admits message = true) :
    Transition.run step s (shown (coming (passing message entry))) =
      some { phase := s.phase.ended message, current := none, messages := s.messages ++ [message] } := by
  obtain ⟨phase, current, messages⟩ := s
  obtain rfl : current = none := hcurrent
  rw [shown_passing]
  cases phase with
  | replying opened owed => exact absurd rfl (hreplying opened owed)
  | _ => simp_all [Transition.run, step]

/-- The input of a turn. -/
theorem run_admitting {s : Nesting} (messages : List Message) (hcurrent : s.current = none)
    (hphase : s.phase = .entering ∨ s.phase = .between) :
    Transition.run step s (shown (coming (admitting messages))) =
      some { s with messages := s.messages ++ messages } := by
  induction messages generalizing s with
  | nil => simp [admitting]
  | cons message messages ih =>
    have hended : s.phase.ended message = s.phase := by
      obtain hphase | hphase := hphase <;> rw [hphase] <;> rfl
    have hadmits : s.phase.admits message = true := by
      obtain hphase | hphase := hphase <;> rw [hphase] <;> rfl
    have hpass := run_passing (.userMessage message) hcurrent (fun opened owed heq => by simp [heq] at hphase) hadmits
    rw [hended] at hpass
    rw [admitting, List.flatMap_cons, coming_append, shown_append, Transition.run_append]
    refine ⟨_, hpass, ?_⟩
    have hrest := ih (s := { phase := s.phase, current := none, messages := s.messages ++ [message] }) rfl hphase
    rw [admitting] at hrest
    rw [hrest]
    simp [hcurrent]

end Nesting

end MinionAgent
