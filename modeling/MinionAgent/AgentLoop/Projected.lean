import MinionAgent.AgentLoop.DriverProtocol
import MinionAgent.AgentLoop.ProjectedLog

/-!
# MinionAgent.AgentLoop.Projected

A log projects to the events that its run has dispatched
(`agent/projection.py`).

* `Mirrored` — what the projector has made of a run's entries so far, beside the
  events that the run has dispatched;
* `Choice.projects` — every choice keeps it;
* `LoopEnvironment.projected_of_executeRun` — the events of a whole run.
-/

namespace MinionAgent

open Py

/-- The event that an action dispatches. -/
def LoopAction.dispatched? : LoopAction → Option AgentEvent
  | .own (.dispatch event) => some event
  | _ => none

/-- The events that a run dispatches. -/
def dispatched (actions : List LoopAction) : List AgentEvent := actions.filterMap LoopAction.dispatched?

@[simp] theorem dispatched_append (actions actions' : List LoopAction) :
    dispatched (actions ++ actions') = dispatched actions ++ dispatched actions' :=
  List.filterMap_append

/-- What a projector that began at `p₁` has made of a run's entries: the run's
events are out, but for the messages of the results that wait. -/
structure Mirrored (p₁ : Projector) (actions : List LoopAction) (p : Projector) : Prop where
  follows : (logged actions).foldlM Projector.follow p₁ = some p
  events : ∃ own, p.events = p₁.events ++ own ∧
    lifecycle own ++ bracketed p.waiting = lifecycle (dispatched actions)
  messages : p.runMessages ++ p.waiting = actions.filterMap LoopAction.admitted?

namespace Mirrored

variable {p₁ p p' : Projector} {actions more : List LoopAction}

theorem append (h : Mirrored p₁ actions p) (hfollows : (logged more).foldlM Projector.follow p = some p')
    (hevents : ∃ own, p'.events = p.events ++ own ∧
      lifecycle own ++ bracketed p'.waiting = bracketed p.waiting ++ lifecycle (dispatched more))
    (hmessages : p'.runMessages ++ p'.waiting = p.runMessages ++ p.waiting ++ more.filterMap LoopAction.admitted?) :
    Mirrored p₁ (actions ++ more) p' := by
  obtain ⟨own, hown, hsame⟩ := h.events
  obtain ⟨own', hown', hsame'⟩ := hevents
  refine ⟨?_, ⟨own ++ own', ?_, ?_⟩, ?_⟩
  · rw [logged_append, List.foldlM_append, h.follows]
    exact hfollows
  · rw [hown', hown, List.append_assoc]
  · rw [lifecycle_append, List.append_assoc, hsame', ← List.append_assoc, hsame, dispatched_append, lifecycle_append]
  · rw [hmessages, h.messages, List.filterMap_append]

/-- Actions that the projector need not know of. -/
theorem quiet (h : Mirrored p₁ actions p) (hlogged : logged more = []) (hevents : lifecycle (dispatched more) = [])
    (hadmitted : more.filterMap LoopAction.admitted? = []) : Mirrored p₁ (actions ++ more) p := by
  refine h.append ?_ ⟨[], (List.append_nil _).symm, ?_⟩ ?_
  · rw [hlogged]
    rfl
  · rw [hevents, List.append_nil]
    rfl
  · rw [hadmitted, List.append_nil]

/-- One entry, where no result waits. -/
theorem next (h : Mirrored p₁ actions p) (hnone : p.pendingResults = []) {entry : LoopEntry} {own : List AgentEvent}
    (hlogged : logged more = [entry]) (hchunk : ∀ event, entry = .chunk event → event.Rebuilt)
    (hevents : (p.entered entry).events = p.events ++ own) (hpending : (p.entered entry).pendingResults = [])
    (hown : lifecycle own = lifecycle (dispatched more))
    (hmessages : (p.entered entry).runMessages = p.runMessages ++ more.filterMap LoopAction.admitted?) :
    Mirrored p₁ (actions ++ more) (p.entered entry) := by
  have hwaiting : p.waiting = [] := by rw [Projector.waiting, hnone, List.map_nil]
  have hwaiting' : (p.entered entry).waiting = [] := by rw [Projector.waiting, hpending, List.map_nil]
  refine h.append ?_ ⟨own, hevents, ?_⟩ ?_
  · rw [hlogged, List.foldlM_cons, Projector.follow_entry hnone hchunk]
    rfl
  · rw [hwaiting, hwaiting', hown]
    exact List.append_nil _
  · rw [hwaiting, hwaiting', List.append_nil, List.append_nil, hmessages]

end Mirrored

namespace Protocol

/-- What a projector has at a node. -/
def Node.Projected (p : Projector) : Node → Prop
  | .streaming opened => p.streamOpen = opened ∧ p.pendingResults = [] ∧ p.turnResults = []
  | .beginning reply | .batching reply _ _ =>
    p.streamOpen = false ∧ p.pendingResults = [] ∧ p.turnResults = [] ∧ p.turnMessage = some (.assistant reply)
  | .reporting reply _ _ toolResults | .adding reply _ _ _ toolResults =>
    p.streamOpen = false ∧ p.waiting = toolResults ∧ p.turnResults = [] ∧ p.turnMessage = some (.assistant reply)
  | .deciding _ _ .later | .turned _ _ | .stopping _ _ | .followups _ | .extending _ | .ending _ | .over =>
    p.streamOpen = false ∧ p.pendingResults = []
  | .settled => True
  | _ => p.streamOpen = false ∧ p.pendingResults = [] ∧ p.turnResults = []

/-- The events so far are projected. -/
def Projects (p₁ : Projector) (actions : List LoopAction) (node : Node) : Prop :=
  ∃ p, Mirrored p₁ actions p ∧ node.Projected p

variable {setting : LoopSetting} {node node' : Node} {s : RunState} {action : LoopAction} {script : Script}
  {actions : List LoopAction} {p₁ p : Projector}

/-! ## Scripts -/

/-- A message that is admitted. -/
theorem mirrored_admitting (h : Mirrored p₁ actions p) (hnone : p.pendingResults = []) (messages : List Message) :
    ∃ p', Mirrored p₁ (actions ++ coming (admitting messages)) p' ∧ p'.pendingResults = [] ∧
      p'.streamOpen = p.streamOpen ∧ p'.turnResults = p.turnResults := by
  induction messages generalizing actions p with
  | nil =>
    refine ⟨p, ?_, hnone, rfl, rfl⟩
    rw [admitting, List.flatMap_nil, coming_nil, List.append_nil]
    exact h
  | cons message messages ih =>
    have hpassed : Mirrored p₁ (actions ++ coming (passing message (.userMessage message)))
        (p.entered (.userMessage message)) :=
      h.next hnone rfl (fun _ heq => by cases heq) rfl hnone rfl rfl
    obtain ⟨p', hp', hrest⟩ := ih hpassed hnone
    refine ⟨p', ?_, hrest⟩
    rw [admitting, List.flatMap_cons, coming_append, ← List.append_assoc]
    exact hp'

theorem mirrored_startingTurn (h : Mirrored p₁ actions p) (hnone : p.pendingResults = []) (reason : PreStepReason) :
    Mirrored p₁ (actions ++ coming (startingTurn reason)) (p.entered (.turnStart reason)) :=
  h.next hnone rfl (fun _ heq => by cases heq) rfl hnone rfl (List.append_nil _).symm

/-- A turn that ends without results that wait. -/
theorem mirrored_endingTurn (h : Mirrored p₁ actions p) (hnone : p.pendingResults = []) {reply : AssistantMessage}
    (hmessage : p.turnMessage = some (.assistant reply)) :
    Mirrored p₁ (actions ++ coming (endingTurn reply p.turnResults)) (p.entered (.turnEnd none)) := by
  rw [endingTurn]
  split <;>
  exact h.next hnone rfl (fun _ heq => by cases heq) rfl hnone (by rw [hmessage]; rfl) (List.append_nil _).symm

/-- The end of a reply's message. -/
theorem mirrored_finishing (h : Mirrored p₁ actions p) (hnone : p.pendingResults = []) (reply : AssistantMessage) :
    Mirrored p₁ (actions ++ coming (finishing reply p.streamOpen)) (p.entered (.assistantMessage reply)) := by
  rw [finishing]
  cases hopen : p.streamOpen with
  | true =>
    have hevents : (p.entered (.assistantMessage reply)).events = p.events ++ [.messageEnd (.assistant reply)] := by
      simp [Projector.entered, Projector.emitMessage, Projector.emit, hopen]
    exact h.next hnone rfl (fun _ heq => by cases heq) hevents hnone rfl rfl
  | false =>
    have hevents : (p.entered (.assistantMessage reply)).events =
        p.events ++ [.messageStart (.assistant reply), .messageEnd (.assistant reply)] := by
      simp [Projector.entered, Projector.emitMessage, Projector.emit, hopen]
    exact h.next hnone rfl (fun _ heq => by cases heq) hevents hnone rfl rfl

/-- The entries of a reply's calls. -/
theorem mirrored_toolCalls (h : Mirrored p₁ actions p) (hnone : p.pendingResults = []) (calls : List ToolCallBlock) :
    ∃ p', Mirrored p₁ (actions ++ coming (calls.map fun call => logging (.toolCall call))) p' ∧
      p'.pendingResults = [] ∧ p'.streamOpen = p.streamOpen ∧ p'.turnResults = p.turnResults ∧
      p'.turnMessage = p.turnMessage := by
  induction calls generalizing actions p with
  | nil =>
    refine ⟨p, ?_, hnone, rfl, rfl, rfl⟩
    rw [List.map_nil, coming_nil, List.append_nil]
    exact h
  | cons call calls ih =>
    have hlogged : Mirrored p₁ (actions ++ coming [logging (.toolCall call)]) (p.entered (.toolCall call)) :=
      h.next hnone rfl (fun _ heq => by cases heq) rfl hnone rfl (List.append_nil _).symm
    obtain ⟨p', hp', hrest⟩ := ih hlogged hnone
    refine ⟨p', ?_, hrest⟩
    rw [List.append_assoc, ← coming_append] at hp'
    exact hp'

/-- What follows a reply. -/
theorem projects_replied (h : Mirrored p₁ actions p) (hnone : p.pendingResults = []) (hclosed : p.streamOpen = false)
    (hresults : p.turnResults = []) {reply : AssistantMessage} (hmessage : p.turnMessage = some (.assistant reply)) :
    Projects p₁ (actions ++ coming (replied reply).1) (replied reply).2 := by
  have hturn := mirrored_endingTurn h hnone hmessage
  rw [hresults] at hturn
  rw [replied]
  split
  · exact ⟨_, hturn, hclosed, hnone⟩
  · split
    · exact ⟨_, hturn, hclosed, hnone⟩
    · obtain ⟨p', hp', hnone', hclosed', hresults', hmessage'⟩ := mirrored_toolCalls h hnone reply.toolCalls
      exact ⟨p', hp', hclosed'.trans hclosed, hnone', hresults'.trans hresults, hmessage'.trans hmessage⟩

/-- The hooks of a batch tell of executions only. -/
theorem quiet_hooks (batch next : Batch) (pending : List String) :
    logged (coming ((batch.hooks next pending).map .effect)) = [] ∧
      lifecycle (dispatched (coming ((batch.hooks next pending).map .effect))) = [] ∧
      (coming ((batch.hooks next pending).map .effect)).filterMap LoopAction.admitted? = [] := by
  rw [Batch.hooks]
  cases next.items[batch.items.length]? with
  | none => exact ⟨rfl, rfl, rfl⟩
  | some item =>
    rw [Option.elim_some, BatchItem.effects]
    cases batch.calls[item.call]? with
    | none => exact ⟨rfl, rfl, rfl⟩
    | some call => cases item <;> exact ⟨rfl, rfl, rfl⟩

/-- A node of a batch. -/
theorem projected_batchNode {reply : AssistantMessage} (tools : List ToolDefinition) (batch : Batch)
    (h : (Node.batching reply tools batch).Projected p) : (batchNode reply tools batch).Projected p := by
  rw [batchNode]
  split
  · exact h
  · obtain ⟨hclosed, hnone, hresults, hmessage⟩ := h
    exact ⟨hclosed, by rw [Projector.waiting, hnone, List.map_nil], hresults, hmessage⟩

/-- A result that waits once its message is out. -/
theorem mirrored_reported (h : Mirrored p₁ actions p) (result : ToolResult) (now : Int) (completionIndex : ℕ) :
    Mirrored p₁ (actions ++ coming (passing (.toolResult (result.toMessage now))
        (.toolResult (result.toMessage now) completionIndex result.addedToolNames result.terminate)))
      (p.entered (.toolResult (result.toMessage now) completionIndex result.addedToolNames result.terminate)) := by
  have hwaiting : (p.entered (.toolResult (result.toMessage now) completionIndex result.addedToolNames
      result.terminate)).waiting = p.waiting ++ [.toolResult (result.toMessage now)] := by
    simp [Projector.waiting, Projector.entered]
  refine h.append ?_ ⟨[], (List.append_nil _).symm, ?_⟩ ?_
  · change List.foldlM Projector.follow p [_] = _
    rw [List.foldlM_cons, p.follow_toolResult]
    rfl
  · rw [hwaiting, bracketed, List.flatMap_append]
    rfl
  · rw [hwaiting, ← List.append_assoc]
    rfl

/-- The end of a turn with results that wait. -/
theorem mirrored_flushed (h : Mirrored p₁ actions p) {reply : AssistantMessage} (hresults : p.turnResults = [])
    (hmessage : p.turnMessage = some (.assistant reply)) :
    ∃ p', Mirrored p₁ (actions ++ coming (endingTurn reply p.waiting)) p' ∧ p'.pendingResults = [] ∧
      p'.streamOpen = p.streamOpen := by
  obtain ⟨ends, hends, hflush⟩ := p.flushResults_eq
  obtain ⟨hlogged, hdispatched, hadmitted⟩ : logged (coming (endingTurn reply p.waiting)) = [.turnEnd none] ∧
      dispatched (coming (endingTurn reply p.waiting)) = [.turnEnd (some (.assistant reply)) p.waiting] ∧
      (coming (endingTurn reply p.waiting)).filterMap LoopAction.admitted? = [] := by
    rw [endingTurn]
    split <;> exact ⟨rfl, rfl, rfl⟩
  let q : Projector := { p.emit (ends ++ bracketed p.waiting) with
    pendingResults := []
    runMessages := p.runMessages ++ p.waiting
    turnResults := p.turnResults ++ p.waiting }
  have hevents : (q.entered (.turnEnd none)).events =
      p.events ++ (ends ++ bracketed p.waiting ++ [.turnEnd (some (.assistant reply)) p.waiting]) := by
    simp [q, Projector.entered, Projector.emit, hmessage, hresults]
  have hnone : (q.entered (.turnEnd none)).pendingResults = [] := rfl
  refine ⟨q.entered (.turnEnd none), h.append ?_ ⟨_, hevents, ?_⟩ ?_, hnone, rfl⟩
  · rw [hlogged, List.foldlM_cons, Projector.follow, Projector.step, if_neg (by decide), hflush]
    exact @Projector.enter_entry q (.turnEnd none) fun _ heq => by cases heq
  · rw [hdispatched, lifecycle_append, lifecycle_append, hends, lifecycle_bracketed]
    exact List.append_nil _
  · rw [hadmitted, List.append_nil]
    exact List.append_nil _

/-- The end of a run. -/
theorem mirrored_endingRun (h : Mirrored p₁ actions p) (hnone : p.pendingResults = [])
    (hmessages : s.newMessages = actions.filterMap LoopAction.admitted?) (reason : String) (detail : Option String) :
    Mirrored p₁ (actions ++ coming (endingRun s reason detail))
      (p.entered (.agentEnd reason s.causes detail none)) := by
  have hown : p.runMessages = s.newMessages := by
    rw [hmessages, ← h.messages, Projector.waiting, hnone, List.map_nil, List.append_nil]
  refine h.next hnone rfl (fun _ heq => by cases heq) rfl hnone ?_ (List.append_nil _).symm
  rw [Option.getD_none, hown]
  rfl

/-- Every choice leads on to events that are projected. -/
theorem Choice.projects (h : Choice setting node s action script node') (hprojects : Projects p₁ actions node)
    (hchunk : ∀ event, action = .received (.update event) → event.Rebuilt)
    (hmessages : s.newMessages = actions.filterMap LoopAction.admitted?) :
    Projects p₁ (actions ++ action :: coming script) node' := by
  obtain ⟨p, hmirrored, hnode⟩ := hprojects
  have hquiet : logged [action] = [] ∧ lifecycle (dispatched [action]) = [] ∧
      [action].filterMap LoopAction.admitted? = [] := by
    have hown := h.not_own
    cases action with
    | own effect => cases hown
    | _ => exact ⟨rfl, rfl, rfl⟩
  have hafter := hmirrored.quiet hquiet.1 hquiet.2.1 hquiet.2.2
  have hmessages' : s.newMessages = (actions ++ [action]).filterMap LoopAction.admitted? := by
    rw [hmessages, List.filterMap_append, hquiet.2.2, List.append_nil]
  have hstay : ∀ node' : Node, node'.Projected p → Projects p₁ (actions ++ [action] ++ coming []) node' := by
    intro node' hnode'
    rw [coming_nil, List.append_nil]
    exact ⟨p, hafter, hnode'⟩
  rw [List.append_cons]
  cases h with
  | @decided asked reason stage s decision =>
    have hclosed : p.streamOpen = false ∧ p.pendingResults = [] ∧ (stage ≠ .later → p.turnResults = []) := by
      cases stage with
      | first skip | steered => exact ⟨hnode.1, hnode.2.1, fun _ => hnode.2.2⟩
      | later => exact ⟨hnode.1, hnode.2, fun hlater => absurd rfl hlater⟩
    obtain ⟨hopen, hnone, hresults⟩ := hclosed
    cases decision with
    | reject detail => exact hstay _ ⟨hopen, hnone⟩
    | enter messages systemOverride historyWindow =>
      obtain ⟨p', hp', hnone', hopen', hresults'⟩ := mirrored_admitting hafter hnone messages
      rw [deciding, coming_append, ← List.append_assoc]
      cases stage with
      | first skip =>
        refine ⟨p', by rw [Stage.next, coming_nil, List.append_nil]; exact hp', ?_⟩
        cases skip <;> exact ⟨hopen'.trans hopen, hnone', hresults'.trans (hresults Stage.noConfusion)⟩
      | steered =>
        refine ⟨p', by rw [Stage.next, coming_nil, List.append_nil]; exact hp', ?_⟩
        exact ⟨hopen'.trans hopen, hnone', hresults'.trans (hresults Stage.noConfusion)⟩
      | later => exact ⟨_, mirrored_startingTurn hp' hnone' reason, hopen'.trans hopen, hnone', rfl⟩
  | unpolled | polled | transforming | transformed => exact hstay _ hnode
  | @prompted shape s text =>
    obtain ⟨hopen, hnone, hresults⟩ := hnode
    rw [heading]
    split
    · exact ⟨p, hafter.quiet rfl rfl rfl, hopen, hnone, hresults⟩
    · exact ⟨_, hafter.next hnone rfl (fun _ heq => by cases heq) (List.append_nil _).symm hnone rfl
        (List.append_nil _).symm, hopen, hnone, hresults⟩
  | requested => exact hstay _ hnode
  | @received opened s chunk =>
    obtain ⟨rfl, hnone, hresults⟩ := hnode
    cases chunk with
    | start message =>
      exact ⟨_, hafter.next hnone rfl (fun _ heq => by cases heq) rfl hnone rfl (List.append_nil _).symm,
        rfl, hnone, hresults⟩
    | update event =>
      exact ⟨_, hafter.next hnone rfl (fun other heq => by cases heq; exact hchunk event rfl) rfl hnone rfl
        (List.append_nil _).symm, rfl, hnone, hresults⟩
    | done reply | error _ reply =>
      rw [receiving, coming_append, ← List.append_assoc]
      exact projects_replied (mirrored_finishing hafter hnone reply) hnone rfl hresults rfl
  | began => exact hstay _ (projected_batchNode _ _ hnode)
  | @stepped reply tools batch next s offered event =>
    obtain ⟨hlogged, hevents, hadmitted⟩ := quiet_hooks batch next s.agent.pendingToolCalls
    exact ⟨p, hafter.quiet hlogged hevents hadmitted, projected_batchNode _ _ hnode⟩
  | reported now =>
    obtain ⟨hopen, hwaiting, hresults, hmessage⟩ := hnode
    refine ⟨_, mirrored_reported hafter _ now _, hopen, ?_, hresults, hmessage⟩
    rw [← hwaiting]
    simp [Projector.waiting, Projector.entered]
  | added => exact hstay _ hnode
  | resulted =>
    obtain ⟨hopen, rfl, hresults, hmessage⟩ := hnode
    obtain ⟨p', hp', hnone', hopen'⟩ := mirrored_flushed hafter hresults hmessage
    exact ⟨p', hp', hopen'.trans hopen, hnone'⟩
  | stopped => exact ⟨_, mirrored_endingRun hafter hnode.2 hmessages' _ _, hnode⟩
  | ended => exact ⟨_, mirrored_endingRun hafter hnode.2 hmessages' _ _, hnode⟩
  | _ => exact hstay _ hnode

/-- Until a failure is settled, what a run dispatches and owes after its
`AGENT_START` is what its log projects to. -/
theorem Run.projects {begun : Begun} {c : Config} (h : Run setting (begin begun s) actions c)
    (hs : s.newMessages = []) (hunsettled : Unsettled c.node)
    (hchunks : ∀ event, .received (.update event) ∈ c.ahead actions → event.Rebuilt)
    (hnone : p₁.pendingResults = []) (hmessages : p₁.runMessages = []) (hclosed : p₁.streamOpen = false) :
    ∃ rest, c.ahead actions = .own (.log (.agentStart s.causes)) :: .own (.dispatch (.agentStart s.causes)) :: rest ∧
      Projects p₁ rest c.node := by
  refine Run.ahead (I := fun actions node => (∀ event, .received (.update event) ∈ actions → event.Rebuilt) →
    ∃ rest, actions = .own (.log (.agentStart s.causes)) :: .own (.dispatch (.agentStart s.causes)) :: rest ∧
      Projects p₁ rest node) ?_ ?_ h hunsettled hchunks
  · intro _
    have hwaiting : p₁.waiting = [] := by rw [Projector.waiting, hnone, List.map_nil]
    have hnil : Mirrored p₁ [] p₁ :=
      ⟨rfl, ⟨[], (List.append_nil _).symm, by rw [hwaiting]; rfl⟩, by rw [hwaiting, hmessages]; rfl⟩
    exact ⟨_, rfl, _, mirrored_startingTurn hnil hnone .initial, hclosed, hnone, rfl⟩
  · intro actions node s' action script node' hrun hchoice ih hchunks
    obtain ⟨rest, hrest, hprojects⟩ := ih fun event hevent => hchunks event (List.mem_append_left _ hevent)
    refine ⟨rest ++ action :: coming script, by rw [hrest]; rfl, hchoice.projects hprojects ?_ ?_⟩
    · rintro event rfl
      exact hchunks event (by simp)
    · have hadmitted := hrun.newMessages
      rw [← filterMap_told (fun _ _ => rfl), hrest] at hadmitted
      exact hadmitted.trans (congrArg (· ++ _) hs)

end Protocol

/-! ## Whole runs -/

/-- A log that can be read, and that leaves no message open. -/
def ClosesStreams (log : List SessionEvent) : Prop :=
  ∃ p, log.foldlM Projector.step {} = some p ∧ p.streamOpen = false

/-- No failure, and no update of which the log keeps too little. -/
def LoopAction.isRegular : LoopAction → Bool
  | .failed _ => false
  | .received (.update event) => decide event.Rebuilt
  | _ => true

/-- What `project` makes of a log is told by what its last run begins with. -/
theorem project_written {log : List SessionEvent} {before : List AgentEvent} (hbefore : project log = some before)
    (hclosed : ClosesStreams log) (causes start : List Value) :
    ∃ p₁ : Projector, p₁.events = before ++ [.agentStart causes] ∧ p₁.pendingResults = [] ∧ p₁.runMessages = [] ∧
      p₁.streamOpen = false ∧ ∀ (rest : List LoopEntry) (p : Projector), (∀ entry ∈ rest, entry.isStart = false) →
        rest.foldlM Projector.follow p₁ = some p →
          (log ++ written causes log.length (.agentStart start :: rest)).foldlM Projector.step {} = some p := by
  obtain ⟨p, hp, hopen⟩ := hclosed
  rw [project, hp] at hbefore
  obtain rfl := Option.some.inj hbefore
  obtain ⟨hnone, hsame⟩ := p.flushed
  let p₁ : Projector := { p.flushResults.emit [.agentStart causes] with runMessages := [] }
  refine ⟨p₁, rfl, hnone, rfl, hsame.trans hopen, fun rest p' hrest hfollow => ?_⟩
  have hstart : (written causes log.length [.agentStart start]).foldlM Projector.step p = some p₁ := by
    change (p.step ((LoopEntry.agentStart start).event causes (log.length + 1))).bind _ = _
    rw [Projector.step, if_neg (by change EventKind.agentStart ≠ EventKind.toolResult; decide)]
    rfl
  rw [← Projector.foldlM_written p₁ causes (log.length + 1) hrest] at hfollow
  rw [List.foldlM_append, hp, ← List.singleton_append, written_append]
  change List.foldlM _ p _ = _
  rw [List.foldlM_append, hstart]
  exact hfollow

/-- The events that a run without a failure has dispatched are those that its
log projects to, but for those of tools' executions and for causes that came
later. -/
theorem LoopEnvironment.projected_of_executeRun {W : Type} {env : LoopEnvironment W} {fuel : ℕ} {begun : Begun}
    {world : W} {agent : AgentInstance} {artifacts : ArtifactStore} {s : LoopState W}
    (h : env.executeRun fuel begun world agent artifacts = some (.ok (), s)) {node : SessionLog}
    (hnode : agent.sessions.log? agent.log = some node)
    (hothers : ∀ action ∈ s.actions, action.LeavesLog agent.log) (hregular : ∀ action ∈ s.actions, action.isRegular)
    {before : List AgentEvent} (hbefore : project node.events = some before) (hclosed : ClosesStreams node.events) :
    ∃ final live own, s.run.agent.sessions.log? agent.log = some final ∧
      dispatched s.actions = .agentStart (begun.causes.map Cause.value) :: live ∧
      project final.events = some (before ++ .agentStart s.run.causes :: own) ∧ lifecycle own = lifecycle live ∧
      ClosesStreams final.events := by
  obtain ⟨messages, -, script, last, hrun, hok⟩ := env.run_of_executeRun h
  obtain ⟨rfl, hlast⟩ := hok rfl
  have hover : last = .over := hlast.resolve_right fun hsettled => by
    subst hsettled
    obtain ⟨before, text, script', node', s', done, -, -, htold, -⟩ := hrun.failure rfl Protocol.Node.noConfusion
    have hmem : LoopAction.failed text ∈ told s.actions := by simp [htold]
    exact Bool.false_ne_true (hregular _ (List.mem_of_mem_filter hmem))
  subst hover
  obtain ⟨p₁, hevents, hnone, hmessages, hopen, hread⟩ :=
    project_written hbefore hclosed s.run.causes (begun.causes.map Cause.value)
  obtain ⟨rest, hahead, p, hmirrored, hends⟩ := hrun.projects rfl Protocol.Node.noConfusion (fun event hevent => by
    rw [Protocol.Config.ahead, Protocol.coming_nil, List.append_nil] at hevent
    exact of_decide_eq_true (hregular _ (List.mem_of_mem_filter hevent))) hnone hmessages hopen
  rw [Protocol.Config.ahead, Protocol.coming_nil, List.append_nil] at hahead
  obtain ⟨final, ⟨hfinal, -⟩, -, -, hwritten⟩ := (hrun.journal hnode hothers).node
  have hlogged : logged s.actions = .agentStart (begun.causes.map Cause.value) :: logged rest := by
    rw [← logged_told, hahead]
    rfl
  have hplain : ∀ entry ∈ logged rest, entry.isStart = false := by
    obtain ⟨others, heq, hplain⟩ := hrun.began.logged Protocol.Node.noConfusion
    rw [Protocol.coming_nil, List.filterMap_nil, List.append_nil, ← logged_eq_own, hlogged] at heq
    exact (List.cons.inj heq).2 ▸ hplain
  have hall := hread _ p hplain hmirrored.follows
  rw [← hlogged, ← hwritten] at hall
  obtain ⟨own, hown, hsame⟩ := hmirrored.events
  rw [Projector.waiting, hends.2] at hsame
  refine ⟨final, dispatched rest, own, hfinal, ?_, ?_, (List.append_nil _).symm.trans hsame, p, hall, hends.1⟩
  · rw [dispatched, ← filterMap_told (fun _ _ => rfl), hahead]
    rfl
  · rw [project, hall]
    change some p.flushResults.events = _
    rw [Projector.flushResults_of_nil hends.2, hown, hevents, List.append_assoc]
    rfl

/-- The model streams each reply: its start, an update, its end. -/
def LoopEnvironment.streaming : LoopEnvironment (List AssistantMessage) :=
  { scripted with
    pull _ replies s :=
      match replies with
      | [] => { world := [], outcome := .ok (.inr .ended) }
      | reply :: rest =>
        if s.agent.streamingMessage = some (.assistant reply) then
          { world := rest, outcome := .ok (.inl (.done reply reply)) }
        else if s.agent.streamingMessage = none then
          { world := replies, outcome := .ok (.inl (.start { reply with content := [] })) }
        else if reply.toolCalls = [] then
          { world := replies, outcome := .ok (.inl (.update (.textDelta 0 "ok" reply))) }
        else { world := replies, outcome := .ok (.inl (.update (.toolCallDelta 0 "" reply))) } }

/-- A run of two turns, with streamed replies and a tool's execution in the first
turn. -/
theorem LoopEnvironment.projected_streaming : ∃ s final live own,
    streaming.executeRun 12 scriptedBegun scriptedReplies scriptedAgent {} = some (.ok (), s) ∧
      live.length = 17 ∧ s.run.agent.sessions.log? scriptedAgent.log = some final ∧
      dispatched s.actions = .agentStart [] :: live ∧
      project final.events = some (.agentStart s.run.causes :: own) ∧ lifecycle own = lifecycle live := by
  have hreturns : Returns (fun s =>
      decide (∀ action ∈ s.actions, action.LeavesLog scriptedAgent.log) &&
        (decide (∀ action ∈ s.actions, action.isRegular) && (dispatched s.actions).length == 18))
      (streaming.executeRun 12 scriptedBegun scriptedReplies scriptedAgent {}) = true := by decide +kernel
  obtain ⟨s, hs, hchecked⟩ := exists_of_returns hreturns
  rw [Bool.and_eq_true, Bool.and_eq_true, beq_iff_eq] at hchecked
  obtain ⟨hothers, hregular, hlength⟩ := hchecked
  obtain ⟨final, live, own, hfinal, hlive, hproject, hsame, -⟩ :=
    projected_of_executeRun hs rfl (of_decide_eq_true hothers) (of_decide_eq_true hregular) rfl ⟨{}, rfl, rfl⟩
  refine ⟨s, final, live, own, hs, ?_, hfinal, hlive, hproject, hsame⟩
  rw [hlive] at hlength
  exact Nat.succ.inj hlength

end MinionAgent
