import MinionAgent.AgentLoop.Lookahead
import MinionAgent.Session.Compaction

/-!
# MinionAgent.AgentLoop.RunLog

What a run writes into its log, if nobody else writes into it.

* `LoopEffect.usual` — what a run does after its `AGENT_START`;
* `written` — the events of the entries that a run logs;
* `Journal` — a run's log holds what was there, and then what the run wrote.
-/

namespace MinionAgent

open Py

/-! ## What a run does -/

/-- The operation of the run that an action is. -/
def LoopAction.own? : LoopAction → Option LoopEffect
  | .own effect => some effect
  | _ => none

/-- The entry that an action logs. -/
def LoopAction.logged? : LoopAction → Option LoopEntry
  | .own (.log entry) => some entry
  | _ => none

/-- The entries that a run logs. -/
def logged (actions : List LoopAction) : List LoopEntry := actions.filterMap LoopAction.logged?

theorem logged_told (actions : List LoopAction) : logged (told actions) = logged actions :=
  filterMap_told (fun _ _ => rfl) actions

@[simp] theorem logged_append (actions actions' : List LoopAction) :
    logged (actions ++ actions') = logged actions ++ logged actions' :=
  List.filterMap_append

/-- The entry that an operation logs. -/
def LoopEffect.entry? : LoopEffect → Option LoopEntry
  | .log entry => some entry
  | _ => none

theorem logged_eq_own (actions : List LoopAction) :
    logged actions = (actions.filterMap LoopAction.own?).filterMap LoopEffect.entry? := by
  rw [List.filterMap_filterMap, logged]
  refine List.filterMap_congr fun action _ => ?_
  cases action with
  | own effect => cases effect <;> rfl
  | _ => rfl

/-- A write to what listeners see of the agent. -/
def AgentAction.isView : AgentAction → Bool
  | .setStreamingMessage _ | .setPendingToolCalls _ | .setErrorMessage _ => true
  | _ => false

def LoopEntry.isStart : LoopEntry → Bool
  | .agentStart _ => true
  | _ => false

/-- What a run does after its `AGENT_START`. -/
def LoopEffect.usual : LoopEffect → Bool
  | .write action => action.isView
  | .log entry => !entry.isStart
  | .store _ | .dispatch _ | .newMessage _ => true

namespace Protocol

def Expected.usual : Expected → Bool
  | .effect operation => operation.usual
  | .answer => true

/-- Nothing but what a run does after its start. -/
def Script.usual (script : Script) : Bool := script.all Expected.usual

@[simp] theorem Script.usual_append (script script' : Script) :
    Script.usual (script ++ script') = (script.usual && script'.usual) :=
  List.all_append

theorem usual_admitting (messages : List Message) : Script.usual (admitting messages) = true := by
  rw [Script.usual, admitting, List.all_flatMap]
  exact List.all_eq_true.mpr fun message _ => rfl

theorem usual_endingTurn (reply : AssistantMessage) (toolResults : List Message) :
    Script.usual (endingTurn reply toolResults) = true := by
  rw [endingTurn]
  split <;> rfl

theorem usual_deciding (reason : PreStepReason) (stage : Stage) (decision : PreStepDecision Message) :
    Script.usual (deciding reason stage decision).1 = true := by
  cases decision with
  | reject detail => rfl
  | enter messages systemOverride historyWindow =>
    rw [deciding, Script.usual_append, usual_admitting]
    cases stage <;> rfl

theorem usual_heading (sha256 : ByteArray → String) (s : RunState) (shape : Shape) (text : String) :
    Script.usual (heading sha256 s shape text).1 = true := by
  rw [heading]
  split <;> rfl

theorem usual_replied (reply : AssistantMessage) : Script.usual (replied reply).1 = true := by
  rw [replied]
  split
  · exact usual_endingTurn reply []
  · split
    · exact usual_endingTurn reply []
    · rw [Script.usual, List.all_map]
      exact List.all_eq_true.mpr fun call _ => rfl

theorem usual_receiving (opened : Bool) (chunk : StreamChunk) : Script.usual (receiving opened chunk).1 = true := by
  cases chunk with
  | start message | update event => rfl
  | done reply | error _ reply =>
    rw [receiving, Script.usual_append, usual_replied]
    cases opened <;> rfl

theorem usual_hooks (batch next : Batch) (pending : List String) :
    Script.usual ((batch.hooks next pending).map .effect) = true := by
  rw [Script.usual, List.all_map, Batch.hooks]
  cases next.items[batch.items.length]? with
  | none => rfl
  | some item =>
    rw [Option.elim_some, BatchItem.effects]
    cases batch.calls[item.call]? with
    | none => rfl
    | some call => cases item <;> rfl

/-- What a choice leads to is nothing unusual. -/
theorem Choice.usual {setting : LoopSetting} {node node' : Node} {s : RunState} {action : LoopAction} {script : Script}
    (h : Choice setting node s action script node') : Script.usual script = true := by
  cases h with
  | decided decision => exact usual_deciding _ _ decision
  | prompted => exact usual_heading _ _ _ _
  | received chunk => exact usual_receiving _ chunk
  | stepped => exact usual_hooks _ _ _
  | resulted => exact usual_endingTurn _ _
  | _ => rfl

/-- A choice logs nothing itself. -/
theorem Choice.not_own {setting : LoopSetting} {node node' : Node} {s : RunState} {action : LoopAction}
    {script : Script} (h : Choice setting node s action script node') : action.own? = none := by
  cases h <;> rfl

theorem own_coming (script : Script) (h : Script.usual script = true) :
    ∀ effect ∈ (coming script).filterMap LoopAction.own?, effect.usual = true := by
  intro effect heffect
  obtain ⟨action, haction, hown⟩ := List.mem_filterMap.mp heffect
  obtain ⟨expected, hexpected, hcoming⟩ := List.mem_filterMap.mp haction
  have husual := List.all_eq_true.mp h expected hexpected
  cases expected with
  | answer => cases hcoming
  | effect operation =>
    cases hcoming
    cases hown
    exact husual

/-- The operations that a run has done and owes: its start and what is usual,
or, if it failed before its start, what is usual. -/
def Began (causes : List Value) (effects : List LoopEffect) (node : Node) : Prop :=
  (∃ rest, effects = .log (.agentStart causes) :: rest ∧ ∀ effect ∈ rest, effect.usual = true) ∨
    node = .settled ∧ ∀ effect ∈ effects, effect.usual = true

theorem Began.append {causes : List Value} {effects more : List LoopEffect} {node node' : Node}
    (h : Began causes effects node) (hnode : Unsettled node) (hmore : ∀ effect ∈ more, effect.usual = true) :
    Began causes (effects ++ more) node' := by
  obtain ⟨rest, rfl, hrest⟩ | ⟨hsettled, -⟩ := h
  · refine .inl ⟨rest ++ more, rfl, fun effect heffect => ?_⟩
    exact (List.mem_append.mp heffect).elim (hrest effect) (hmore effect)
  · exact absurd hsettled hnode

theorem usual_settling (s : RunState) (text : String) : Script.usual (settling s text) = true := rfl

theorem Run.began {setting : LoopSetting} {begun : Begun} {s : RunState} {c : Config} {actions : List LoopAction}
    (h : Run setting (begin begun s) actions c) :
    Began s.causes (actions.filterMap LoopAction.own? ++ (coming c.script).filterMap LoopAction.own?) c.node := by
  refine Run.preserves (I := fun actions c =>
    Began s.causes (actions.filterMap LoopAction.own? ++ (coming c.script).filterMap LoopAction.own?) c.node) ?_ ?_ h
  · exact .inl ⟨_, rfl, own_coming (dispatching (.agentStart s.causes) ++ startingTurn .initial) rfl⟩
  · intro actions c₁ action c₂ hrun hstep ih
    rw [List.filterMap_append]
    cases hstep with
    | effect allowed =>
      rw [List.append_assoc]
      exact ih
    | answered | waited =>
      change Began s.causes ((_ ++ []) ++ _) _
      rw [List.append_nil]
      exact ih
    | chosen choice =>
      have hown : [action].filterMap LoopAction.own? = [] := by simp [choice.not_own]
      rw [hown, List.append_nil]
      refine Began.append ?_ choice.pending (own_coming _ choice.usual)
      simpa using ih
    | @failed script node s' text hnode =>
      change Began s.causes ((_ ++ []) ++ _) _
      rw [List.append_nil]
      have husual := own_coming (settling s' text) (usual_settling s' text)
      obtain ⟨rest, hrest, hall⟩ | ⟨hsettled, -⟩ := ih
      · cases hactions : actions.filterMap LoopAction.own? with
        | nil => exact .inr ⟨rfl, husual⟩
        | cons effect effects =>
          rw [hactions, List.cons_append] at hrest
          obtain ⟨rfl, rfl⟩ := List.cons.inj hrest
          refine .inl ⟨effects ++ _, rfl, fun effect heffect => ?_⟩
          exact (List.mem_append.mp heffect).elim (fun hold => hall effect (List.mem_append_left _ hold))
            (husual effect)
      · exact absurd hsettled hnode

/-- Only the first entry of a run is its start. -/
theorem Began.start {causes : List Value} {effects more : List LoopEffect} {entry : LoopEntry} {node : Node}
    (h : Began causes (effects ++ .log entry :: more) node) (hentry : entry.isStart = true) :
    entry = .agentStart causes ∧ effects = [] := by
  have husual : LoopEffect.usual (.log entry) = false := by simp [LoopEffect.usual, hentry]
  obtain ⟨rest, hrest, hall⟩ | ⟨-, hall⟩ := h
  · cases effects with
    | nil =>
      obtain ⟨heq, -⟩ := List.cons.inj hrest
      cases heq
      exact ⟨rfl, rfl⟩
    | cons effect effects =>
      obtain ⟨-, rfl⟩ := List.cons.inj hrest
      have hlog := hall (.log entry) (by simp)
      rw [husual] at hlog
      cases hlog
  · have hlog := hall (.log entry) (by simp)
    rw [husual] at hlog
    cases hlog

/-- What is no start is usual. -/
theorem Began.usual {causes : List Value} {effects : List LoopEffect} {node : Node} (h : Began causes effects node)
    {effect : LoopEffect} (hmem : effect ∈ effects) (hstart : effect ≠ .log (.agentStart causes)) :
    effect.usual = true := by
  obtain ⟨rest, rfl, hall⟩ | ⟨-, hall⟩ := h
  · obtain heq | hmem := List.mem_cons.mp hmem
    · exact absurd heq hstart
    · exact hall effect hmem
  · exact hall effect hmem

/-- A run that has come to a node has logged its start, and no other one. -/
theorem Began.logged {causes : List Value} {effects : List LoopEffect} {node : Node} (h : Began causes effects node)
    (hnode : Unsettled node) :
    ∃ rest, effects.filterMap LoopEffect.entry? = .agentStart causes :: rest ∧
      ∀ entry ∈ rest, entry.isStart = false := by
  obtain ⟨rest, rfl, hall⟩ | ⟨hsettled, -⟩ := h
  · refine ⟨rest.filterMap LoopEffect.entry?, rfl, fun entry hentry => ?_⟩
    obtain ⟨effect, heffect, heq⟩ := List.mem_filterMap.mp hentry
    have husual := hall effect heffect
    cases effect with
    | log other =>
      cases heq
      simpa [LoopEffect.usual] using husual
    | _ => cases heq
  · exact absurd hsettled hnode

end Protocol

/-! ## Entries and events -/

/-- An entry as the log shows it in the end: the causes of the start are the
run's own list, which grows. -/
def LoopEntry.final (causes : List Value) : LoopEntry → LoopEntry
  | .agentStart _ => .agentStart causes
  | entry => entry

/-- The event of an entry. -/
def LoopEntry.event (causes : List Value) (seq : ℕ) (entry : LoopEntry) : SessionEvent where
  seq := seq
  kind := entry.kind
  data := (entry.final causes).data

/-- The events of a run's entries, after so many others. -/
def written (causes : List Value) (n : ℕ) (entries : List LoopEntry) : List SessionEvent :=
  entries.mapIdx fun i entry => entry.event causes (n + i + 1)

theorem written_concat (causes : List Value) (n : ℕ) (entries : List LoopEntry) (entry : LoopEntry) :
    written causes n (entries ++ [entry]) =
      written causes n entries ++ [entry.event causes (n + entries.length + 1)] :=
  List.mapIdx_concat

theorem written_append (causes : List Value) (n : ℕ) (entries rest : List LoopEntry) :
    written causes n (entries ++ rest) = written causes n entries ++ written causes (n + entries.length) rest := by
  rw [written, List.mapIdx_append]
  congr 2
  funext i entry
  congr 1
  omega

@[simp] theorem length_written (causes : List Value) (n : ℕ) (entries : List LoopEntry) :
    (written causes n entries).length = entries.length :=
  List.length_mapIdx

theorem modify_append_length {α : Type} (xs ys : List α) (f : α → α) :
    (xs ++ ys).modify xs.length f = xs ++ ys.modify 0 f := by
  induction xs with
  | nil => rfl
  | cons x xs ih => rw [List.cons_append, List.length_cons, List.modify_succ_cons, ih, List.cons_append]

/-- Where the start comes first, other causes change the first event. -/
theorem written_causes (causes causes' : List Value) (n : ℕ) {start : List Value} {rest : List LoopEntry}
    (hrest : ∀ entry ∈ rest, entry.isStart = false) :
    written causes' n (.agentStart start :: rest) =
      (written causes n (.agentStart start :: rest)).modify 0 fun event =>
        { event with data := (LoopEntry.agentStart causes').data } := by
  rw [written, written, List.mapIdx_cons, List.mapIdx_cons, List.modify_zero_cons]
  congr 1
  refine List.mapIdx_eq_mapIdx_iff.mpr fun i hi => ?_
  have hentry := hrest _ (List.getElem_mem hi)
  rw [LoopEntry.event, LoopEntry.event]
  cases hcase : rest[i] with
  | agentStart causes =>
    rw [hcase] at hentry
    cases hentry
  | _ => rfl

/-! ## Whoever leaves the log alone -/

/-- What other code does adds nothing to a log. -/
def AgentAction.LeavesLog (log : ℕ) : AgentAction → Prop
  | .session operation => operation.grows ≠ some log
  | _ => True

instance (log : ℕ) : DecidablePred (AgentAction.LeavesLog log) := fun action =>
  match action with
  | .session operation => inferInstanceAs (Decidable (operation.grows ≠ some log))
  | .send _ _ _ _ | .claim _ _ | .clear _ | .takeWake | .setStatus _ | .setSystemPrompt _ | .setModel _
  | .setThinkingLevel _ | .setStreamingMessage _ | .setPendingToolCalls _ | .setErrorMessage _ | .abort =>
    .isTrue trivial

/-- While the run waits, nobody adds to a log. -/
def LoopAction.LeavesLog (log : ℕ) : LoopAction → Prop
  | .answered actions _ => ∀ action ∈ actions, action.LeavesLog log
  | _ => True

instance (log : ℕ) : DecidablePred (LoopAction.LeavesLog log) := fun action =>
  match action with
  | .answered actions _ => inferInstanceAs (Decidable (∀ action ∈ actions, action.LeavesLog log))
  | .own _ | .decided _ _ _ | .claimed _ _ _ | .extended _ | .prompted _ | .transforming _ | .transformed _ _
  | .requested _ | .received _ | .began _ | .stepped _ | .reported _ | .added _ | .resulted _ | .updated _
  | .ended _ _ | .failed _ => .isTrue trivial

/-- A log and what it inherits are the same in later sessions. -/
structure Spared (log : ℕ) (node : SessionLog) (s s' : Sessions) : Prop where
  log? : s'.log? log = some node
  inherited : ∀ ancestor boundary, node.parent = some (ancestor, boundary) →
    s'.derive ancestor boundary = s.derive ancestor boundary

namespace AgentInstance

variable {uuid : ℕ → String}

theorem log_act (agent : AgentInstance) (action : AgentAction) : (agent.act uuid action).log = agent.log := by
  cases action with
  | send message target wakeup origin =>
    simp only [act]
    split <;> rfl
  | _ => rfl

/-- Only operations on sessions change them. -/
theorem sessions_act (agent : AgentInstance) (action : AgentAction) :
    (agent.act uuid action).sessions =
      match action with
      | .session operation => agent.sessions.step operation
      | _ => agent.sessions := by
  cases action with
  | send message target wakeup origin =>
    simp only [act]
    split <;> rfl
  | _ => rfl

theorem spared_act (agent : AgentInstance) {log : ℕ} {node : SessionLog} {s : Sessions} {action : AgentAction}
    (h : Spared log node s agent.sessions) (haction : action.LeavesLog log) :
    Spared log node s (agent.act uuid action).sessions := by
  rw [sessions_act]
  cases action with
  | session operation =>
    refine ⟨agent.sessions.log?_step_of_grows h.log? haction, fun ancestor boundary hparent => ?_⟩
    exact (agent.sessions.inherited_step h.log? operation ancestor boundary hparent).trans
      (h.inherited ancestor boundary hparent)
  | _ => exact h

theorem log_perform (agent : AgentInstance) (actions : List AgentAction) :
    (agent.perform uuid actions).log = agent.log := by
  induction actions generalizing agent with
  | nil => rfl
  | cons action actions ih => exact (ih (agent.act uuid action)).trans (agent.log_act action)

theorem spared_perform (agent : AgentInstance) {log : ℕ} {node : SessionLog} {s : Sessions}
    {actions : List AgentAction} (h : Spared log node s agent.sessions)
    (hactions : ∀ action ∈ actions, action.LeavesLog log) :
    Spared log node s (agent.perform uuid actions).sessions := by
  induction actions generalizing agent with
  | nil => exact h
  | cons action actions ih =>
    exact ih (agent.act uuid action) (agent.spared_act h (hactions action List.mem_cons_self))
      fun other hother => hactions other (List.mem_cons_of_mem _ hother)

end AgentInstance

/-! ## The journal of a run -/

/-- What the log of a run holds: what was there before, and then what the run
wrote. -/
structure Journal (s₀ : RunState) (node₀ : SessionLog) (actions : List LoopAction) (s : RunState) : Prop where
  log : s.agent.log = s₀.agent.log
  node : ∃ node, Spared s₀.agent.log node s₀.agent.sessions s.agent.sessions ∧ node.info = node₀.info ∧
    node.parent = node₀.parent ∧ node.events = node₀.events ++ written s.causes node₀.events.length (logged actions)
  started : ∀ causes rest, logged actions = .agentStart causes :: rest → s.started = node₀.events.length + 1
  causes : logged actions = [] → s.causes = s₀.causes

namespace Journal

variable {setting : LoopSetting} {s₀ s s' : RunState} {node₀ : SessionLog} {actions : List LoopAction}
  {action : LoopAction}

/-- Where nothing is logged and the run's list of causes stays. -/
theorem quiet (h : Journal s₀ node₀ actions s) (hlogged : action.logged? = none)
    (hlog : s'.agent.log = s.agent.log) (hstarted : s'.started = s.started) (hcauses : s'.causes = s.causes)
    (hspared : ∀ node, Spared s₀.agent.log node s₀.agent.sessions s.agent.sessions →
      Spared s₀.agent.log node s₀.agent.sessions s'.agent.sessions) : Journal s₀ node₀ (actions ++ [action]) s' := by
  have hsame : logged (actions ++ [action]) = logged actions := by
    rw [logged_append]
    simp [logged, hlogged]
  obtain ⟨node, hnode, hinfo, hparent, hevents⟩ := h.node
  refine ⟨hlog.trans h.log, ⟨node, hspared node hnode, hinfo, hparent, ?_⟩, ?_, ?_⟩
  · rw [hsame, hcauses]
    exact hevents
  · rw [hsame, hstarted]
    exact h.started
  · rw [hsame, hcauses]
    exact h.causes

/-- An entry that the log takes. -/
theorem appended (h : Journal s₀ node₀ actions s) {entry : LoopEntry}
    (hallowed : ∃ sessions, s.accepts entry = .ok sessions)
    (hfirst : entry.isStart = true → entry = .agentStart s₀.causes ∧ logged actions = []) :
    Journal s₀ node₀ (actions ++ [.own (.log entry)]) (s.apply setting (.own (.log entry))) := by
  have hlogged : logged (actions ++ [.own (.log entry)]) = logged actions ++ [entry] := by
    rw [logged_append]
    rfl
  obtain ⟨node, ⟨hnode, hinherited⟩, hinfo, hparent, hevents⟩ := h.node
  obtain ⟨sessions, hok⟩ := hallowed
  have hlength : node.events.length = node₀.events.length + (logged actions).length := by
    rw [hevents, List.length_append, length_written]
  have hfinal : entry.final s.causes = entry := by
    cases entry with
    | agentStart causes =>
      obtain ⟨heq, hnone⟩ := hfirst rfl
      rw [heq, h.causes hnone]
      rfl
    | _ => rfl
  have hpush : s.agent.sessions.step (.append s.agent.log entry.kind entry.data) =
      s.agent.sessions.push s₀.agent.log entry.kind entry.data := by
    rw [RunState.accepts, h.log] at hok
    rw [Sessions.step, Sessions.apply, h.log, hok]
    exact (Sessions.append_eq_ok hok).2.2.2
  refine ⟨h.log, ⟨pushed node entry.kind entry.data, ⟨?_, fun ancestor boundary hp => ?_⟩, hinfo, hparent, ?_⟩, ?_, ?_⟩
  · change (s.agent.sessions.step _).log? _ = _
    rw [hpush]
    exact s.agent.sessions.log?_push hnode entry.kind entry.data
  · change (s.agent.sessions.step _).derive _ _ = _
    exact (s.agent.sessions.inherited_step hnode _ ancestor boundary hp).trans (hinherited ancestor boundary hp)
  · change _ = node₀.events ++ written s.causes _ _
    rw [hlogged, written_concat, ← List.append_assoc, LoopEntry.event, hfinal, ← hlength, ← hevents]
    rfl
  · intro causes rest hrest
    rw [hlogged] at hrest
    have hlen : s.agent.sessions.length s.agent.log = node.events.length := by
      rw [Sessions.length, h.log, hnode, Option.elim_some]
    cases hstart : entry.isStart with
    | true =>
      obtain ⟨rfl, hnone⟩ := hfirst hstart
      change s.agent.sessions.length s.agent.log + 1 = _
      rw [hlen, hlength, hnone, List.length_nil, Nat.add_zero]
    | false =>
      have hsame : (s.apply setting (.own (.log entry))).started = s.started := by
        cases entry with
        | agentStart causes => cases hstart
        | _ => rfl
      rw [hsame]
      cases hactions : logged actions with
      | nil =>
        rw [hactions, List.nil_append] at hrest
        obtain ⟨rfl, -⟩ := List.cons.inj hrest
        cases hstart
      | cons first others =>
        rw [hactions, List.cons_append] at hrest
        obtain ⟨rfl, -⟩ := List.cons.inj hrest
        exact h.started causes others hactions
  · intro hnone
    rw [hlogged] at hnone
    simp at hnone

/-- The causes of the start go on. -/
theorem extended (setting : LoopSetting) (h : Journal s₀ node₀ actions s) {start : List Value} {rest : List LoopEntry}
    (hlogged : logged actions = .agentStart start :: rest) (hrest : ∀ entry ∈ rest, entry.isStart = false)
    (causes : List Value) :
    Journal s₀ node₀ (actions ++ [.extended causes]) (s.apply setting (.extended causes)) := by
  have hsame : logged (actions ++ [.extended causes]) = logged actions := by
    rw [logged_append]
    exact List.append_nil _
  obtain ⟨node, ⟨hnode, hinherited⟩, hinfo, hparent, hevents⟩ := h.node
  have hstarted := h.started start rest hlogged
  have hfirst : ∀ event, node.events[s.started - 1]? = some event → event.kind = EventKind.agentStart := by
    intro event hevent
    rw [hstarted, Nat.add_sub_cancel, hevents, List.getElem?_append_right le_rfl, Nat.sub_self, hlogged, written,
      List.mapIdx_cons] at hevent
    obtain rfl := Option.some.inj hevent
    rfl
  have hread : ∀ node', s.agent.sessions.log? s.agent.log = some node' → ∀ event,
      node'.events[s.started - 1]? = some event →
      event.kind ∈ EventKind.logOnly ∧ event.kind ≠ EventKind.sessionReset ∧ event.kind ≠ EventKind.compaction := by
    intro node' hnode' event hevent
    rw [h.log, hnode] at hnode'
    obtain rfl := Option.some.inj hnode'
    rw [hfirst event hevent]
    decide
  refine ⟨h.log, ⟨node.amend (s.started - 1) fun event =>
    { event with data := (LoopEntry.agentStart (s.causes ++ causes)).data }, ⟨?_, fun ancestor boundary hp => ?_⟩,
      hinfo, hparent, ?_⟩, ?_, ?_⟩
  · change (s.agent.sessions.amend s.agent.log s.started _).log? _ = _
    rw [h.log]
    exact s.agent.sessions.log?_amend hnode s.started _
  · exact (s.agent.sessions.derive_amend hread ancestor boundary).trans (hinherited ancestor boundary hp)
  · rw [hsame, hlogged]
    change node.events.modify _ _ = node₀.events ++ written (s.causes ++ causes) _ _
    rw [written_causes s.causes (s.causes ++ causes) _ hrest, hevents, hlogged, hstarted, Nat.add_sub_cancel,
      modify_append_length]
  · rw [hsame]
    exact h.started
  · intro hnone
    rw [hsame, hlogged] at hnone
    cases hnone

end Journal

/-- The log of a run holds what was there before and what the run wrote, if
nobody else adds to it. -/
theorem Protocol.Run.journal {setting : LoopSetting} {begun : Begun} {s₀ : RunState} {node₀ : SessionLog} {c : Config}
    {actions : List LoopAction} (h : Run setting (begin begun s₀) actions c)
    (hnode : s₀.agent.sessions.log? s₀.agent.log = some node₀)
    (hothers : ∀ action ∈ actions, action.LeavesLog s₀.agent.log) : Journal s₀ node₀ actions c.run := by
  refine Run.preserves (I := fun actions c =>
    (∀ action ∈ actions, action.LeavesLog s₀.agent.log) → Journal s₀ node₀ actions c.run) ?_ ?_ h hothers
  · intro _
    refine ⟨rfl, ⟨node₀, ⟨hnode, fun _ _ _ => rfl⟩, rfl, rfl, (List.append_nil _).symm⟩, ?_, fun _ => rfl⟩
    intro causes rest hlogged
    cases hlogged
  · intro actions c₁ action c₂ hrun hstep ih hothers
    have hold := ih fun other hother => hothers other (List.mem_append_left _ hother)
    have hlast := hothers action (by simp)
    have hbegan := hrun.began
    cases hstep with
    | @effect effect rest node s allowed =>
      cases effect with
      | log entry =>
        refine hold.appended allowed fun hentry => ?_
        have hnext : Began s₀.causes (actions.filterMap LoopAction.own? ++
            .log entry :: (coming rest).filterMap LoopAction.own?) node := hbegan
        obtain ⟨heq, hnone⟩ := hnext.start hentry
        exact ⟨heq, by rw [logged_eq_own, hnone]; rfl⟩
      | write write =>
        have hmem : LoopEffect.write write ∈ actions.filterMap LoopAction.own? ++
            .write write :: (coming rest).filterMap LoopAction.own? := by simp
        have hview := hbegan.usual hmem (by simp)
        cases write with
        | setStreamingMessage | setPendingToolCalls | setErrorMessage =>
          exact hold.quiet rfl rfl rfl rfl fun _ hspared => hspared
        | _ => cases hview
      | store text | dispatch event | newMessage message => exact hold.quiet rfl rfl rfl rfl fun _ hspared => hspared
    | @answered rest node s others context | @waited node s others context =>
      refine hold.quiet rfl (s.agent.log_perform others) rfl rfl fun node hspared => ?_
      exact s.agent.spared_perform hspared hlast
    | failed text => exact hold.quiet rfl rfl rfl rfl fun _ hspared => hspared
    | @chosen node node' s action script choice =>
      cases choice with
      | extended =>
        obtain ⟨rest, hrest, hall⟩ := hbegan.logged Node.noConfusion
        have hlogged : logged actions = .agentStart s₀.causes :: rest := by
          rw [logged_eq_own, ← hrest]
          simp
        exact hold.extended setting hlogged hall _
      | _ => exact hold.quiet rfl rfl rfl rfl fun _ hspared => hspared

end MinionAgent
