import MinionAgent.AgentLoop.DriverProtocol
import MinionAgent.AgentLoop.ToolEvents

/-!
# MinionAgent.AgentLoop.Grammatical

What a run shows is a word of the language of its events.

* `Fits` — where a listener is when the run is at a node;
* `fits_of_choice` — every choice is read, with what it leads to;
* `shown_of_run` — every run is read, and a failure is settled in one way.
-/

namespace MinionAgent

namespace Protocol

/-- Where a listener is when the run is at a node. -/
def Fits : Node → RunPhase → Prop
  | .deciding _ _ stage, phase => phase = if stage = .later then .between else .entering
  | .polling _, phase | .prompting _, phase | .headed _ _ _, phase | .unwritable, phase | .transforming _ _ _, phase
  | .requesting _ _ _, phase => phase = .entering
  | .streaming opened, phase => phase = .replying opened []
  | .beginning reply, phase => phase = .acting reply 0 [] [] [] ∧ reply.failed = false
  | .batching reply _ batch, phase =>
    ∃ active due, phase = .acting reply batch.stages.length active due [] ∧ Executing reply batch active due
  | .reporting reply _ rest toolResults, phase | .adding reply _ _ rest toolResults, phase =>
    ∃ due, phase = .acting reply (toolResults.length + rest.length) [] due toolResults ∧
      Reporting reply toolResults.length rest due
  | .turned _ _, phase | .stopping _ _, phase | .followups _, phase | .extending _, phase => phase = .between
  | .ending ending, phase => phase.closes ending.reason = true
  | .over, phase => phase = .closed
  | .settled, _ => True

/-- From where it is, a listener reads what is shown, and is where the run is
then. -/
def Reads (phase : RunPhase) (messages : List Message) (actions : List LoopAction) (node : Node) : Prop :=
  ∃ phase', Fits node phase' ∧
    Transition.run Nesting.step ⟨phase, none, messages⟩ (shown actions) =
      some ⟨phase', none, messages ++ actions.filterMap LoopAction.admitted?⟩

variable {setting : LoopSetting} {phase : RunPhase} {messages : List Message} {node node' : Node} {s : RunState}
  {action : LoopAction} {script : Script}

/-- One part is read after the other. -/
theorem Reads.append (phase' : RunPhase) {actions actions' : List LoopAction}
    (h : Transition.run Nesting.step ⟨phase, none, messages⟩ (shown actions) =
      some ⟨phase', none, messages ++ actions.filterMap LoopAction.admitted?⟩)
    (h' : Reads phase' (messages ++ actions.filterMap LoopAction.admitted?) actions' node) :
    Reads phase messages (actions ++ actions') node := by
  obtain ⟨last, hfits, hrun⟩ := h'
  refine ⟨last, hfits, ?_⟩
  rw [shown_append, Transition.run_append, List.filterMap_append, ← List.append_assoc]
  exact ⟨_, h, hrun⟩

/-- Where no message is admitted. -/
theorem Reads.moved (phase' : RunPhase) {actions : List LoopAction} (hfits : Fits node phase')
    (hrun : Transition.run Nesting.step ⟨phase, none, messages⟩ (shown actions) = some ⟨phase', none, messages⟩)
    (hadmitted : actions.filterMap LoopAction.admitted? = []) : Reads phase messages actions node :=
  ⟨phase', hfits, by rw [hrun, hadmitted, List.append_nil]⟩

/-- Where nothing is shown, a listener stays. -/
theorem Reads.silent {actions : List LoopAction} (hfits : Fits node phase) (hshown : shown actions = [])
    (hadmitted : actions.filterMap LoopAction.admitted? = []) : Reads phase messages actions node :=
  .moved phase hfits (by rw [hshown, Transition.run_nil]) hadmitted

/-- A choice that is not shown itself. -/
theorem Reads.cons {actions : List LoopAction} (h : Reads phase messages actions node) (hshown : action.shown? = none)
    (hadmitted : action.admitted? = none) : Reads phase messages (action :: actions) node := by
  obtain ⟨phase', hfits, hrun⟩ := h
  refine ⟨phase', hfits, ?_⟩
  rw [shown_cons, hshown, List.filterMap_cons_none hadmitted]
  exact hrun

/-- A decision is read. -/
theorem reads_decided (asked : List Message) (reason : PreStepReason) (stage : Stage)
    (decision : PreStepDecision Message) (hfits : Fits (.deciding asked reason stage) phase) :
    Reads phase messages (coming (deciding reason stage decision).1) (deciding reason stage decision).2 := by
  have hplace : phase = .entering ∨ phase = .between := by
    rw [Fits] at hfits
    split at hfits
    · exact .inr hfits
    · exact .inl hfits
  cases decision with
  | reject detail =>
    refine Reads.silent ?_ rfl rfl
    obtain rfl | rfl := hplace <;> simp [Fits, deciding, RunPhase.closes]
  | enter inputs systemOverride historyWindow =>
    have hadmit := Nesting.run_admitting (s := ⟨phase, none, messages⟩) inputs rfl hplace
    rw [deciding, coming_append]
    refine Reads.append phase (by rw [admitted_admitting]; exact hadmit) ?_
    cases stage with
    | first skip =>
      refine Reads.silent ?_ rfl rfl
      cases skip <;> exact hfits
    | steered => exact Reads.silent hfits rfl rfl
    | later =>
      obtain rfl : phase = .between := hfits
      exact Reads.moved .entering rfl rfl rfl

/-- What follows a reply is read. -/
theorem reads_replied (reply : AssistantMessage) :
    Reads (.acting reply 0 [] [] []) messages (coming (replied reply).1) (replied reply).2 := by
  have hturn : Transition.run Nesting.step ⟨.acting reply 0 [] [] [], none, messages⟩
      (shown (coming (endingTurn reply []))) =
      some ⟨if reply.failed then .failed reply else .between, none, messages⟩ := by
    rw [shown_endingTurn]
    simp [Transition.run, Nesting.step]
  have hadmitted := admitted_endingTurn reply []
  rw [replied]
  split
  · next hfailed =>
    rw [if_pos hfailed] at hturn
    exact .moved (.failed reply) (by simp [Fits, RunPhase.closes]) hturn hadmitted
  · next hfailed =>
    rw [if_neg hfailed] at hturn
    split
    · exact .moved .between rfl hturn hadmitted
    · refine Reads.silent ⟨rfl, by simpa using hfailed⟩ (shown_toolCalls _) ?_
      generalize reply.toolCalls = calls
      induction calls with
      | nil => rfl
      | cons call calls ih => exact ih

/-- A chunk is read, and what it is relayed by. -/
theorem reads_received (opened : Bool) (chunk : StreamChunk) :
    Reads (.replying opened []) messages (.received chunk :: coming (receiving opened chunk).1)
      (receiving opened chunk).2 := by
  have hdone : ∀ reply : AssistantMessage, relayed opened chunk =
      (if opened then [] else [AgentEvent.messageStart (.assistant reply)]) ++ [.messageEnd (.assistant reply)] →
      Reads (.replying opened []) messages
        ((.received chunk :: coming (finishing reply opened)) ++ coming (replied reply).1) (replied reply).2 := by
    intro reply hrelayed
    refine Reads.append (.acting reply 0 [] [] []) ?_ (reads_replied reply)
    have hadmitted : (LoopAction.received chunk :: coming (finishing reply opened)).filterMap LoopAction.admitted? =
        [.assistant reply] := by cases opened <;> rfl
    rw [hadmitted]
    cases opened <;>
      simp_all [shown_cons, shown_finishing, LoopAction.shown?, Transition.run, Nesting.step]
  cases chunk with
  | start message =>
    refine .moved (.replying true []) rfl ?_ rfl
    cases opened <;> simp [shown_cons, receiving, opens, relayed, LoopAction.shown?, Transition.run, Nesting.step]
  | update event =>
    refine .moved (.replying opened []) rfl ?_ rfl
    cases opened <;> simp [shown_cons, receiving, opens, relayed, LoopAction.shown?, Transition.run, Nesting.step]
  | done reply =>
    rw [receiving, coming_append]
    exact hdone reply rfl
  | error _ reply =>
    rw [receiving, coming_append]
    exact hdone reply rfl

/-- A batch goes on, or its results are reported. -/
theorem fits_batchNode {reply : AssistantMessage} {batch : Batch} {active : List (String × String)}
    {due : List ToolResultMessage} (h : Executing reply batch active due) (tools : List ToolDefinition) :
    Fits (batchNode reply tools batch) (.acting reply batch.stages.length active due []) := by
  rw [batchNode]
  split
  · exact ⟨active, due, rfl, h⟩
  · next outcome houtcome =>
    obtain ⟨rfl, hlength, hreporting⟩ := h.over houtcome
    exact ⟨due, by rw [hlength, List.length_nil, Nat.zero_add], hreporting⟩

/-- A result that is reported is read. -/
theorem reads_reported {reply : AssistantMessage} {outcome : BatchOutcome} {result : ToolResult}
    {rest : List ToolResult} {toolResults : List Message} (entry : LoopEntry) (now : Int)
    (hfits : Fits (.reporting reply outcome (result :: rest) toolResults) phase) :
    Reads phase messages
      (.reported (result.toMessage now) :: coming (passing (.toolResult (result.toMessage now)) entry))
      (.adding reply outcome result rest (toolResults ++ [.toolResult (result.toMessage now)])) := by
  obtain ⟨due, rfl, hreporting⟩ := hfits
  obtain ⟨call, hcall, hid⟩ := hreporting.calls 0 result rfl
  have hmem : (result.toMessage now).untimed ∈ due := hreporting.mem_due
  have hcontains : due.contains (result.toMessage now).untimed = true := List.contains_iff_mem.mpr hmem
  have hany : ((reply.toolCalls[toolResults.length]?).any fun call =>
      call.id == (result.toMessage now).toolCallId) = true := by
    rw [Nat.add_zero] at hcall
    rw [hcall]
    exact beq_iff_eq.mpr hid
  have hadmits : (RunPhase.acting reply (toolResults.length + (result :: rest).length) [] due toolResults).admits
      (.toolResult (result.toMessage now)) = true := by
    rw [RunPhase.admits, hcontains, hany]
    rfl
  have hpass := Nesting.run_passing
    (s := ⟨.acting reply (toolResults.length + (result :: rest).length) [] due toolResults, none, messages⟩) entry rfl
    (fun opened owed => by simp) hadmits
  refine ⟨.acting reply (toolResults.length + (result :: rest).length) [] (due.erase (result.toMessage 0))
    (toolResults ++ [.toolResult (result.toMessage now)]), ⟨due.erase (result.toMessage 0), ?_, ?_⟩, ?_⟩
  · simp only [List.length_append, List.length_cons, List.length_nil]
    congr 1
    omega
  · rw [List.length_append]
    exact hreporting.reported
  · exact hpass

/-- The end of a run is read. -/
theorem reads_ended {reason : String} {detail : Option String} (hcloses : phase.closes reason = true)
    (hmessages : s.newMessages = messages) :
    Reads phase messages (.ended reason detail :: coming (endingRun s reason detail)) .over := by
  refine .moved .closed rfl ?_ rfl
  have hshown : shown (.ended reason detail :: coming (endingRun s reason detail)) =
      [.dispatched (.agentEnd reason s.causes s.newMessages)] := rfl
  rw [hshown]
  cases phase with
  | entering | between | failed reply => simp [Transition.run, Nesting.step, hcloses, hmessages]
  | _ => cases hcloses

/-- Every choice is read, with what it leads to. -/
theorem reads_choice (h : Choice setting node s action script node') (hfits : Fits node phase)
    (hmessages : s.newMessages = messages) : Reads phase messages (action :: coming script) node' := by
  cases h with
  | decided decision => exact (reads_decided _ _ _ decision hfits).cons rfl rfl
  | @prompted shape s text htext =>
    have hsilent : shown (coming (heading setting.sha256 s shape text).1) = [] ∧
        (coming (heading setting.sha256 s shape text).1).filterMap LoopAction.admitted? = [] ∧
        Fits (heading setting.sha256 s shape text).2 phase := by
      rw [heading]
      split <;> exact ⟨rfl, rfl, hfits⟩
    exact (Reads.silent hsilent.2.2 hsilent.1 hsilent.2.1).cons rfl rfl
  | requested =>
    obtain rfl : phase = .entering := hfits
    exact .moved (.replying false []) rfl rfl rfl
  | received chunk =>
    obtain rfl : phase = _ := hfits
    exact reads_received _ chunk
  | @began reply s disposed =>
    obtain ⟨rfl, hsucceeded⟩ := hfits
    exact .silent (fits_batchNode ⟨rfl, hsucceeded, Batch.sound_start _ _, .refl _, .refl _⟩ _) rfl rfl
  | @stepped reply tools batch next s offered event htake =>
    obtain ⟨active, due, rfl, hexecuting⟩ := hfits
    obtain ⟨active', due', hexecuting', hrun⟩ := executing_step hexecuting (Batch.step_of_take htake)
      s.agent.pendingToolCalls messages
    refine Reads.cons (.moved _ (fits_batchNode hexecuting' tools) ?_ ?_) rfl rfl
    · rw [coming_effects]
      exact hrun
    · rw [coming_effects]
      exact Batch.admitted_hooks _
  | reported now => exact reads_reported _ now hfits
  | @resulted reply outcome toolResults s =>
    obtain ⟨due, rfl, hreporting⟩ := hfits
    obtain rfl : due = [] := List.perm_nil.mp hreporting.due
    refine Reads.cons (.moved .between rfl ?_ ?_) rfl rfl
    · rw [shown_endingTurn]
      simp [Transition.run, Nesting.step, hreporting.succeeded]
    · exact admitted_endingTurn reply toolResults
  | stopped =>
    obtain rfl : phase = .between := hfits
    exact reads_ended rfl hmessages
  | going hclaims hgoing =>
    exact .silent hfits rfl rfl
  | completed hclaims =>
    obtain rfl : phase = .between := hfits
    refine .silent ?_ rfl rfl
    rw [Fits]
    split <;> rfl
  | ended => exact reads_ended hfits hmessages
  | _ => exact .silent hfits rfl rfl

/-- Until a failure is settled, what a run shows and owes is read. -/
theorem Run.reads {begun : Begun} {s : RunState} {c : Config} {actions : List LoopAction}
    (h : Run setting (begin begun s) actions c) (hs : s.newMessages = []) (hunsettled : Unsettled c.node) :
    Reads .idle [] (c.ahead actions) c.node := by
  refine Run.ahead (I := fun actions node => Reads .idle [] actions node) ?_ ?_ h hunsettled
  · change Reads .idle [] _ (.deciding begun.entering .initial (.first begun.skipInitialSteeringPoll))
    exact .moved .entering rfl rfl rfl
  intro actions node s' action script node' hrun hchoice hread
  obtain ⟨phase, hfits, hread⟩ := hread
  refine Reads.append phase hread (reads_choice hchoice hfits ?_)
  rw [List.nil_append, filterMap_told (fun _ _ => rfl), hrun.newMessages]
  exact congrArg (· ++ _) hs

end Protocol

/-! ## What listeners are told -/

/-- What a run shows its listeners: a word of the language, which is complete
where the run returned; and after it, where the run failed, how the failure is
settled, from its start on. -/
def Grammatical (actions : List LoopAction) (returned : Prop) : Prop :=
  ∃ regular settlement last, shown actions = regular ++ settlement ∧ Nesting.reads regular = some last ∧
    ((settlement = [] ∧ (∀ text, .failed text ∉ actions) ∧ (returned → last.phase = .closed)) ∨
      ∃ text message causes, .failed text ∈ actions ∧ message.errorMessage = some text ∧ message.failed = true ∧
        settlement <+: settlementOf message causes ∧ (returned → settlement = settlementOf message causes))

end MinionAgent
