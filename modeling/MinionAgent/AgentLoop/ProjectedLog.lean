import MinionAgent.AgentLoop.RunLog

/-!
# MinionAgent.AgentLoop.ProjectedLog

What `project` makes of the entries that a run logs.

* `Projector.entered` — what one entry comes to;
* `Projector.flushResults_eq` — what the results that wait come to;
* `foldlM_written` — the events of a run's entries, read one after the other.
-/

namespace MinionAgent

open Py

/-- An event that does not tell of a tool's execution. -/
def AgentEvent.isLifecycle : AgentEvent → Bool
  | .toolExecutionStart _ _ _ | .toolExecutionUpdate _ _ _ _ | .toolExecutionEnd _ _ _ _ => false
  | _ => true

/-- The events other than those of tools' executions. -/
def lifecycle (events : List AgentEvent) : List AgentEvent := events.filter AgentEvent.isLifecycle

@[simp] theorem lifecycle_append (events events' : List AgentEvent) :
    lifecycle (events ++ events') = lifecycle events ++ lifecycle events' :=
  List.filter_append ..

/-- The start and the end of each message. -/
def bracketed (messages : List Message) : List AgentEvent :=
  messages.flatMap fun message => [.messageStart message, .messageEnd message]

theorem lifecycle_bracketed (messages : List Message) : lifecycle (bracketed messages) = bracketed messages := by
  refine List.filter_eq_self.mpr fun event hevent => ?_
  obtain ⟨message, -, hevent⟩ := List.mem_flatMap.mp hevent
  obtain rfl | rfl := by simpa using hevent
  · rfl
  · rfl

/-- What an update's entry leaves out of it is in the message. -/
def AssistantMessageEvent.Rebuilt (event : AssistantMessageEvent) : Prop :=
  assistantMessageEvent event.kind event.contentIndex event.message event.delta? = some event

instance : DecidablePred AssistantMessageEvent.Rebuilt := fun _ => inferInstanceAs (Decidable (_ = _))

namespace Projector

variable {p : Projector}

/-! ## Results that wait -/

/-- The messages of the results that wait. -/
def waiting (p : Projector) : List Message := p.pendingResults.map fun entry => .toolResult entry.message

theorem waiting_eq (p : Projector) : p.waiting = (p.pendingResults.map ResultEntry.message).map Message.toolResult := by
  rw [waiting, List.map_map]
  rfl

theorem emitMessage_toolResult (p : Projector) (message : ToolResultMessage) :
    p.emitMessage (.toolResult message) =
      { p.emit (bracketed [.toolResult message]) with runMessages := p.runMessages ++ [.toolResult message] } := rfl

/-- The messages of results, one after the other. -/
theorem foldl_emitResult (p : Projector) (results : List ToolResultMessage) :
    (results.map Message.toolResult).foldl emitResult p =
      { p.emit (bracketed (results.map .toolResult)) with
        runMessages := p.runMessages ++ results.map .toolResult
        turnResults := p.turnResults ++ results.map .toolResult } := by
  induction results generalizing p with
  | nil => simp [emit, bracketed]
  | cons result results ih =>
    rw [List.map_cons, List.foldl_cons, ih]
    simp [emitResult, emitMessage_toolResult, emit, bracketed]

/-- The results that wait come out as ends of executions and then as messages. -/
theorem flushResults_eq (p : Projector) :
    ∃ ends, lifecycle ends = [] ∧ p.flushResults = { p.emit (ends ++ bracketed p.waiting) with
      pendingResults := []
      runMessages := p.runMessages ++ p.waiting
      turnResults := p.turnResults ++ p.waiting } := by
  refine ⟨(p.pendingResults.insertionSort byCompletion).map ResultEntry.executionEnd, ?_, ?_⟩
  · refine List.filter_eq_nil_iff.mpr fun event hevent => ?_
    obtain ⟨entry, -, rfl⟩ := List.mem_map.mp hevent
    exact Bool.false_ne_true
  · change p.waiting.foldl emitResult _ = _
    rw [waiting_eq, foldl_emitResult]
    simp [emit]

theorem flushResults_of_nil (h : p.pendingResults = []) : p.flushResults = p := by
  obtain ⟨events, pendingResults, runMessages, turnMessage, turnResults, streamOpen⟩ := p
  obtain rfl : pendingResults = [] := h
  simp [flushResults, emit]

/-- Whatever comes out, no result waits then, and the stream stays as it was. -/
theorem flushed (p : Projector) :
    p.flushResults.pendingResults = [] ∧ p.flushResults.streamOpen = p.streamOpen := by
  obtain ⟨ends, -, h⟩ := p.flushResults_eq
  rw [h]
  exact ⟨rfl, rfl⟩

/-! ## Entries -/

/-- What an entry comes to, the results before it being out. -/
def entered (p : Projector) : LoopEntry → Projector
  | .agentStart causes => { p.emit [.agentStart causes] with runMessages := [] }
  | .agentEnd reason causes _ messages => p.emit [.agentEnd reason causes (messages.getD p.runMessages)]
  | .turnStart _ => { p.emit [.turnStart] with turnMessage := none, turnResults := [] }
  | .turnEnd none => p.emit [.turnEnd p.turnMessage p.turnResults]
  | .turnEnd (some message) => p.emit [.turnEnd (some message) []]
  | .streamStart message => { p.emit [.messageStart (.assistant message)] with streamOpen := true }
  | .chunk event => p.emit [.messageUpdate event (.assistant event.message)]
  | .assistantMessage message => { p.emitMessage (.assistant message) p.streamOpen with streamOpen := false }
  | .userMessage message => p.emitMessage message
  | .toolCall call => p.emit [.toolExecutionStart call.id call.name call.arguments.value]
  | .toolResult message completionIndex _ terminate =>
    { p with pendingResults := p.pendingResults ++ [⟨message, completionIndex, terminate⟩] }
  | .requestHeader _ => p

section Entries

attribute [local simp] enter entered LoopEntry.kind LoopEntry.data EventKind.agentStart EventKind.agentEnd
  EventKind.turnStart EventKind.turnEnd EventKind.assistantStreamStart EventKind.assistantChunk
  EventKind.assistantMessage EventKind.toolCall EventKind.toolResult EventKind.userMessage List.lookup_cons
  List.lookup_append decode_encode

/-- Projecting reads from an entry what the run has written. -/
theorem enter_entry (p : Projector) {entry : LoopEntry} (h : ∀ event, entry = .chunk event → event.Rebuilt) :
    p.enter entry.kind entry.data = some (p.entered entry) := by
  cases entry with
  | agentStart causes | turnStart reason | requestHeader data => rfl
  | agentEnd reason causes detail messages =>
    cases messages <;> simp [overridden, Projector.causes, decodeEach_map decode_encode]
  | turnEnd message =>
    cases message with
    | none => rfl
    | some message =>
      have hmessage := optional_map decodeMessage encodeMessage decode_encode
        (fun m => by cases m <;> simp [encodeMessage]) (some message)
      rw [Option.map_some] at hmessage
      simp [Value.entry, hmessage]
  | chunk event =>
    have hevent := h event rfl
    rw [AssistantMessageEvent.Rebuilt] at hevent
    simp [optional_str, hevent, Message.assistant?]
  | toolResult message completionIndex addedToolNames terminate => simp [ResultEntry.read, Message.toolResult?]
  | streamStart | assistantMessage | userMessage | toolCall => simp

end Entries

/-- The projector after an entry of a run. -/
def follow (p : Projector) (entry : LoopEntry) : Option Projector :=
  p.step { seq := 0, kind := entry.kind, data := entry.data }

/-- The entry of a result. -/
theorem follow_toolResult (p : Projector) (message : ToolResultMessage) (completionIndex : ℕ)
    (addedToolNames : List String) (terminate : Bool) :
    p.follow (.toolResult message completionIndex addedToolNames terminate) =
      some (p.entered (.toolResult message completionIndex addedToolNames terminate)) := by
  rw [follow, step]
  split
  · exact @enter_entry p (.toolResult message completionIndex addedToolNames terminate) fun _ heq => by cases heq
  · contradiction

/-- An entry where no result waits. -/
theorem follow_entry (h : p.pendingResults = []) {entry : LoopEntry}
    (hchunk : ∀ event, entry = .chunk event → event.Rebuilt) : p.follow entry = some (p.entered entry) := by
  rw [follow, step]
  split
  · exact enter_entry p hchunk
  · rw [flushResults_of_nil h]
    exact enter_entry p hchunk

/-- The events of a run's entries, one after the other. -/
theorem foldlM_written (p : Projector) (causes : List Value) (n : ℕ) {entries : List LoopEntry}
    (h : ∀ entry ∈ entries, entry.isStart = false) :
    (written causes n entries).foldlM step p = entries.foldlM follow p := by
  induction entries using List.reverseRecOn with
  | nil => rfl
  | append_singleton entries entry ih =>
    rw [written_concat, List.foldlM_append, List.foldlM_append, ih fun other hother => h other (by simp [hother])]
    refine congrArg _ (funext fun q => ?_)
    have hentry := h entry (by simp)
    cases entry with
    | agentStart causes => cases hentry
    | _ => rfl

end Projector

end MinionAgent
