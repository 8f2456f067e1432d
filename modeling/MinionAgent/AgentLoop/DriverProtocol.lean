import MinionAgent.AgentLoop.Protocol

/-!
# MinionAgent.AgentLoop.DriverProtocol

Whatever surrounds it, a run keeps the protocol.

Each part of the driver has a triple that says which script it works off, or
which node it leaves and where it leads; the triples follow the driver's code.

* `At` — where a run is in the protocol;
* `run_of_executeRun` — every run's actions, of runs that raise and of runs that
  never end too.
-/

namespace MinionAgent

/-- The hooks of a batch log nothing. -/
theorem Batch.not_log_of_mem_hooks (batch next : Batch) (pending : List String) :
    ∀ effect ∈ batch.hooks next pending, ∀ entry, effect ≠ .log entry := by
  intro effect heffect entry
  unfold hooks at heffect
  cases hitem : next.items[batch.items.length]? with
  | none => simp [hitem] at heffect
  | some item =>
    simp only [hitem, Option.elim_some] at heffect
    unfold BatchItem.effects at heffect
    cases hcall : batch.calls[item.call]? with
    | none => simp [hcall] at heffect
    | some call =>
      cases item with
      | started i | updated i report | ended i result | executing i | completed i => grind

namespace LoopEnvironment

open Program Protocol

variable {W α : Type}

/-- Where a run that began at `c₀` is. -/
def At (env : LoopEnvironment W) (c₀ : Config) (script : Script) (node : Node) (s : LoopState W) : Prop :=
  Run env.toLoopSetting c₀ s.actions ⟨script, node, s.run⟩

/-- A run that stopped short, somewhere on its way to a node of a kind. -/
def Short (env : LoopEnvironment W) (c₀ : Config) (ok : Node → Prop) (_ : Stop) (s : LoopState W) : Prop :=
  ∃ script node, ok node ∧ env.At c₀ script node s

variable {env : LoopEnvironment W} {c₀ : Config} {ok : Node → Prop} {script rest : Script} {node node' : Node}

variable {reply : AssistantMessage} {shape : Shape} {request : Request} {message : Message} {entry : LoopEntry}
  {E : Stop → LoopState W → Prop}

theorem At.act {s : LoopState W} {action : LoopAction} {script' : Script} (h : env.At c₀ script node s)
    (hstep : Step env.toLoopSetting ⟨script, node, s.run⟩ action
      ⟨script', node', s.run.apply env.toLoopSetting action⟩) :
    env.At c₀ script' node'
      { s with run := s.run.apply env.toLoopSetting action, actions := s.actions ++ [action] } :=
  .step h hstep

/-! ## Operations -/

/-- An action that the protocol allows. -/
theorem triple_act {P : LoopState W → Prop} {Q : LoopState W → Prop} {action : LoopAction}
    (h : ∀ s, P s → Q { s with run := s.run.apply env.toLoopSetting action, actions := s.actions ++ [action] }) :
    Triple P (env.act action) (fun _ => Q) E :=
  Triple.modify h

theorem triple_effect {effect : LoopEffect} (h : ∀ s, Allowed s effect) :
    Triple (env.At c₀ (.effect effect :: rest) node) (env.act (.own effect)) (fun _ => env.At c₀ rest node) E :=
  triple_act fun s hs => hs.act (.effect (h s.run))

/-- Operations other than appends, in order. -/
theorem triple_effects {effects : List LoopEffect} (h : ∀ effect ∈ effects, ∀ entry, effect ≠ .log entry) :
    Triple (env.At c₀ (effects.map .effect ++ rest) node) (effects.forM fun effect => env.act (.own effect))
      (fun _ => env.At c₀ rest node) E := by
  induction effects with
  | nil => exact Triple.pure fun s hs => hs
  | cons effect effects ih =>
    have hallowed : ∀ s, Allowed s effect := by
      intro s
      cases effect with
      | log entry => exact absurd rfl (h _ List.mem_cons_self entry)
      | write action | store text | dispatch event | newMessage message => exact trivial
    exact (triple_effect hallowed).bind fun _ => ih fun other hother => h other (List.mem_cons_of_mem _ hother)

theorem triple_write {action : AgentAction} :
    Triple (env.At c₀ (writing action :: rest) node) (env.write action) (fun _ => env.At c₀ rest node) E :=
  triple_effect fun _ => trivial

theorem exec_ask (question : W → RunState → Reply W α) (s : LoopState W) :
    exec (env.ask question) s =
      let reply := question s.world s.run
      (match reply.outcome with
        | .ok answer => .ok answer
        | .error failure => .error (.failure failure),
        { world := reply.world
          run := s.run.apply env.toLoopSetting (.answered reply.actions reply.context)
          actions := s.actions ++ [.answered reply.actions reply.context] }) := by
  simp only [ask, act, exec_bind, exec_get, exec_modify]
  cases (question s.world s.run).outcome with
  | ok answer => rfl
  | error failure => rfl

/-- Waiting, where the protocol lets other code run. -/
theorem triple_ask {question : W → RunState → Reply W α} {rest : Script} (hok : ok node)
    (hstep : ∀ s actions context, Step env.toLoopSetting ⟨script, node, s⟩ (.answered actions context)
      ⟨rest, node, s.apply env.toLoopSetting (.answered actions context)⟩) :
    Triple (env.At c₀ script node) (env.ask question) (fun _ => env.At c₀ rest node) (env.Short c₀ ok) := by
  intro s hs
  have hnext := hs.act (hstep s.run (question s.world s.run).actions (question s.world s.run).context)
  rw [exec_ask]
  cases houtcome : (question s.world s.run).outcome with
  | ok answer =>
    simp only [houtcome]
    exact hnext
  | error failure =>
    simp only [houtcome]
    exact ⟨rest, node, hok, hnext⟩

theorem triple_answer {question : W → RunState → Reply W α} (hok : ok node) :
    Triple (env.At c₀ (.answer :: rest) node) (env.ask question) (fun _ => env.At c₀ rest node) (env.Short c₀ ok) :=
  triple_ask hok fun _ _ _ => .answered

theorem triple_wait {question : W → RunState → Reply W α} (hok : ok node) :
    Triple (env.At c₀ [] node) (env.ask question) (fun _ => env.At c₀ [] node) (env.Short c₀ ok) :=
  triple_ask hok fun _ _ _ => .waited

theorem triple_log (hok : ok node) :
    Triple (env.At c₀ (logging entry :: rest) node) (env.log entry) (fun _ => env.At c₀ rest node)
      (env.Short c₀ ok) := by
  refine Triple.get_bind fun s₀ hs₀ => ?_
  cases haccepts : s₀.run.accepts entry with
  | ok sessions =>
    refine triple_act fun s hs => ?_
    subst hs
    exact hs₀.act (.effect ⟨sessions, haccepts⟩)
  | error e =>
    refine Triple.throw fun s hs => ?_
    subst hs
    exact ⟨_, node, hok, hs₀⟩

theorem triple_dispatch {event : AgentEvent} (hok : ok node) :
    Triple (env.At c₀ (dispatching event ++ rest) node) (env.dispatchAgentEvent event) (fun _ => env.At c₀ rest node)
      (env.Short c₀ ok) :=
  (triple_effect (show ∀ s, Allowed s (.dispatch event) from fun _ => trivial)).bind fun _ => triple_answer hok

theorem triple_dispatch_nil {event : AgentEvent} (hok : ok node) :
    Triple (env.At c₀ (dispatching event) node) (env.dispatchAgentEvent event) (fun _ => env.At c₀ [] node)
      (env.Short c₀ ok) :=
  triple_dispatch hok

/-! ## Messages and turns -/

theorem triple_closing (hok : ok node) :
    Triple (env.At c₀ (closing message entry ++ rest) node)
      (do
        env.write (.setStreamingMessage none)
        env.log entry
        env.dispatchAgentEvent (.messageEnd message)
        env.act (.own (.newMessage message)))
      (fun _ => env.At c₀ rest node) (env.Short c₀ ok) := by
  refine triple_write.bind fun _ => ?_
  refine (triple_log hok).bind fun _ => ?_
  refine (triple_dispatch hok).bind fun _ => ?_
  exact triple_effect fun _ => trivial

theorem triple_passMessage (hok : ok node) :
    Triple (env.At c₀ (passing message entry ++ rest) node) (env.passMessage message entry)
      (fun _ => env.At c₀ rest node) (env.Short c₀ ok) := by
  refine triple_write.bind fun _ => ?_
  refine (triple_dispatch hok).bind fun _ => ?_
  exact triple_closing hok

theorem triple_admitMessages {messages : List Message} (hok : ok node) :
    Triple (env.At c₀ (admitting messages ++ rest) node) (env.admitMessages messages) (fun _ => env.At c₀ rest node)
      (env.Short c₀ ok) := by
  induction messages with
  | nil => exact Triple.pure fun s hs => hs
  | cons message messages ih =>
    rw [admitting, List.flatMap_cons, List.append_assoc]
    exact (triple_passMessage hok).bind fun _ => ih

theorem triple_startTurn {reason : PreStepReason} (hok : ok node) :
    Triple (env.At c₀ (startingTurn reason ++ rest) node) (env.startTurn reason) (fun _ => env.At c₀ rest node)
      (env.Short c₀ ok) :=
  (triple_log hok).bind fun _ => triple_dispatch hok

theorem triple_endTurn {toolResults : List Message} (hok : ok node) :
    Triple (env.At c₀ (endingTurn reply toolResults ++ rest) node) (env.endTurn reply toolResults)
      (fun _ => env.At c₀ rest node) (env.Short c₀ ok) := by
  have hwrite : Triple (env.At c₀ (endingTurn reply toolResults ++ rest) node) (env.noteError reply)
      (fun _ => env.At c₀
        (logging (.turnEnd none) :: dispatching (.turnEnd (some (.assistant reply)) toolResults) ++ rest) node)
      (env.Short c₀ ok) := by
    rw [endingTurn, noteError]
    split
    · exact Triple.pure fun s hs => hs
    · exact triple_write
  refine hwrite.bind fun _ => ?_
  exact (triple_log hok).bind fun _ => triple_dispatch hok

theorem triple_finishReply {opened : Bool} (hok : ok node) :
    Triple (env.At c₀ (finishing reply opened ++ rest) node) (env.finishReply reply opened)
      (fun _ => env.At c₀ rest node) (env.Short c₀ ok) := by
  cases opened with
  | true => exact triple_closing hok
  | false => exact triple_passMessage hok

/-! ## Choices -/

/-- A choice that does not depend on the state. -/
theorem triple_choose {action : LoopAction} {script' : Script}
    (h : ∀ s, Choice env.toLoopSetting node s action script' node') :
    Triple (env.At c₀ [] node) (env.act action) (fun _ => env.At c₀ script' node') E :=
  triple_act fun s hs => hs.act (.chosen (h s.run))

theorem triple_claim {target : InboxTarget} {policy : ClaimPolicy} {N : List InputEnvelope → Node}
    (h : ∀ s envelopes, Claims s target policy envelopes →
      Choice env.toLoopSetting node s (.claimed target policy envelopes) [] (N envelopes)) :
    Triple (env.At c₀ [] node) (env.claim target policy) (fun envelopes => env.At c₀ [] (N envelopes)) E := by
  refine Triple.get_bind fun s₀ hs₀ => ?_
  refine Triple.bind (Q := fun _ => env.At c₀ [] (N (s₀.run.agent.inbox.claim target policy).1)) ?_ fun _ => ?_
  · refine triple_act fun s hs => ?_
    subst hs
    exact hs₀.act (.chosen (h _ _ rfl))
  · exact Triple.pure fun s hs => hs

/-! ## The request -/

/-- The text of a request, and the header it leads to. -/
theorem triple_systemText (hok : ∀ shape, ok (.prompting shape)) :
    Triple (env.At c₀ [] (.prompting shape)) (env.systemText shape)
      (fun text s => env.At c₀ (heading env.sha256 s.run shape text).1 (heading env.sha256 s.run shape text).2 s)
      (env.Short c₀ ok) := by
  have hprompted : ∀ text, (∀ override, shape.systemOverride = some override → text = override) →
      Triple (env.At c₀ [] (.prompting shape)) (do env.act (.prompted text); return text)
        (fun text s => env.At c₀ (heading env.sha256 s.run shape text).1 (heading env.sha256 s.run shape text).2 s)
        (env.Short c₀ ok) := by
    intro text htext
    refine Triple.bind (Q := fun _ s =>
      env.At c₀ (heading env.sha256 s.run shape text).1 (heading env.sha256 s.run shape text).2 s) ?_ fun _ => ?_
    · exact triple_act fun s hs => hs.act (.chosen (.prompted htext))
    · exact Triple.pure fun s hs => hs
  refine Triple.get_bind fun s₀ hs₀ => ?_
  have hat : ∀ s, s = s₀ → env.At c₀ [] (.prompting shape) s := fun s hs => hs ▸ hs₀
  cases hoverride : shape.systemOverride with
  | some override =>
    refine Triple.pre ?_ hat
    simp only [pure_bind]
    exact hprompted override fun o ho => by rw [hoverride] at ho; exact Option.some.inj ho
  | none =>
    have hnone : ∀ text override, shape.systemOverride = some override → text = override := by
      intro text override h
      rw [hoverride] at h
      cases h
    cases hassembler : env.promptAssembler with
    | none =>
      refine Triple.pre ?_ hat
      simp only [pure_bind]
      exact hprompted _ (hnone _)
    | some assembler =>
      refine Triple.pre ?_ hat
      refine Triple.bind (Q := fun _ => env.At c₀ [] (.prompting shape)) ?_ fun assembled => ?_
      · refine Triple.tryCatch (triple_wait (hok shape)) fun stop => ?_
        cases stop with
        | failure failure => exact Triple.throw fun s hs => hs
        | outOfFuel => exact Triple.throw fun s hs => hs
      · cases assembled with
        | text text =>
          simp only [pure_bind]
          exact hprompted text (hnone text)
        | other typeName =>
          refine Triple.bind (Q := fun _ _ => False) ?_ fun _ => fun s hs => hs.elim
          exact Triple.throw fun s hs => ⟨[], _, hok shape, hs⟩

theorem triple_recordHeader {text : String} {schemas : List ToolSchema} (hunwritable : ok .unwritable)
    (hheaded : ok (.headed shape text schemas)) :
    Triple
      (fun s => env.At c₀ (heading env.sha256 s.run shape text).1 (heading env.sha256 s.run shape text).2 s ∧
        schemas = s.run.context.tools.map ToolDefinition.schema)
      (env.recordHeader text schemas) (fun _ => env.At c₀ [] (.headed shape text schemas)) (env.Short c₀ ok) := by
  refine Triple.get_bind fun s₀ ⟨hs₀, hschemas⟩ => ?_
  cases hpayload : toolsPayload schemas with
  | none =>
    have hheading : heading env.sha256 s₀.run shape text = ([.effect (.store text)], .unwritable) := by
      rw [heading, ← hschemas, hpayload]
    rw [hheading] at hs₀
    have hat : ∀ s, s = s₀ → env.At c₀ [.effect (.store text)] .unwritable s := fun s hs => hs ▸ hs₀
    refine Triple.pre ?_ hat
    refine (triple_effect (show ∀ s, Allowed s (.store text) from fun _ => trivial)).bind fun _ => ?_
    exact Triple.throw fun s hs => ⟨[], _, hunwritable, hs⟩
  | some payload =>
    have hheading : heading env.sha256 s₀.run shape text =
        ([.effect (.store text), .effect (.store payload),
          logging (.requestHeader
            (headerData env.sha256 [("system_base", text)] s₀.run.config.model.model payload))],
          .headed shape text schemas) := by
      rw [heading, ← hschemas, hpayload]
    rw [hheading] at hs₀
    have hat : ∀ s, s = s₀ → env.At c₀ [.effect (.store text), .effect (.store payload),
        logging (.requestHeader (headerData env.sha256 [("system_base", text)] s₀.run.config.model.model payload))]
        (.headed shape text schemas) s := fun s hs => hs ▸ hs₀
    refine Triple.pre ?_ hat
    refine (triple_effect (show ∀ s, Allowed s (.store text) from fun _ => trivial)).bind fun _ => ?_
    refine (triple_effect (show ∀ s, Allowed s (.store payload) from fun _ => trivial)).bind fun _ => ?_
    exact triple_log hheaded

theorem triple_pullChunk {soFar : Option AssistantMessage} {opened : Bool} (hok : ok (.streaming opened)) :
    Triple (env.At c₀ [] (.streaming opened)) (env.pullChunk request soFar)
      (fun chunk => env.At c₀ (receiving opened chunk).1 (receiving opened chunk).2) (env.Short c₀ ok) := by
  have hreceived : ∀ chunk, Triple (env.At c₀ [] (.streaming opened))
      (do env.act (.received chunk); return chunk)
      (fun chunk => env.At c₀ (receiving opened chunk).1 (receiving opened chunk).2) (env.Short c₀ ok) := by
    intro chunk
    exact (triple_choose fun s => .received chunk).bind fun _ => Triple.pure fun s hs => hs
  refine (triple_wait hok).bind fun answer => ?_
  cases answer with
  | inl chunk =>
    simp only [pure_bind]
    exact hreceived chunk
  | inr ending =>
    cases hsettled : (settledFrom request ending () soFar []).head? with
    | none =>
      simp only [hsettled]
      refine Triple.bind (Q := fun _ _ => False) ?_ fun _ => fun s hs => hs.elim
      exact Triple.throw fun s hs => ⟨[], _, hok, hs⟩
    | some settled =>
      simp only [hsettled, pure_bind]
      exact hreceived settled.2

/-- The chunks of a reply: when they are over, its end is due. -/
theorem triple_receive (fuel : ℕ) {soFar : Option AssistantMessage} {opened : Bool}
    (hok : ∀ opened, ok (.streaming opened)) :
    Triple (env.At c₀ [] (.streaming opened)) (env.receive request fuel soFar opened)
      (fun reply => env.At c₀ (finishing reply.1 reply.2 ++ (replied reply.1).1) (replied reply.1).2)
      (env.Short c₀ ok) := by
  induction fuel generalizing soFar opened with
  | zero => exact Triple.throw fun s hs => ⟨[], _, hok opened, hs⟩
  | succ fuel ih =>
    refine (triple_pullChunk (hok opened)).bind fun chunk => ?_
    cases chunk with
    | start message =>
      refine triple_write.bind fun _ => ?_
      refine (triple_log (hok true)).bind fun _ => ?_
      exact (triple_dispatch_nil (hok true)).bind fun _ => ih
    | update event =>
      refine triple_write.bind fun _ => ?_
      refine (triple_log (hok opened)).bind fun _ => ?_
      exact (triple_dispatch_nil (hok opened)).bind fun _ => ih
    | done reply soFar => exact Triple.pure fun s hs => hs
    | error reason reply soFar => exact Triple.pure fun s hs => hs

theorem triple_transform {text : String} {schemas : List ToolSchema} {history : List Message}
    (hok : ok (.transforming text schemas history)) :
    Triple
      (fun s => env.At c₀ [] (.headed shape text schemas) s ∧
        history = windowed shape.historyWindow s.run.context.messages)
      (env.transform history) (fun messages => env.At c₀ [] (.requesting text schemas messages)) (env.Short c₀ ok) := by
  refine Triple.bind (Q := fun _ => env.At c₀ [] (.transforming text schemas history)) ?_ fun _ => ?_
  · refine triple_act fun s ⟨hs, hhistory⟩ => ?_
    subst hhistory
    exact hs.act (.chosen .transforming)
  · refine (triple_wait hok).bind fun messages => ?_
    exact (triple_choose fun s => .transformed messages).bind fun _ => Triple.pure fun s hs => hs

/-- A request, up to the end of its stream. -/
theorem triple_request (fuel : ℕ) :
    Triple (env.At c₀ [] (.prompting shape)) (env.request fuel shape)
      (fun reply => env.At c₀ (finishing reply.1 reply.2 ++ (replied reply.1).1) (replied reply.1).2)
      (env.Short c₀ Unsettled) := by
  refine (triple_systemText (by simp [Unsettled])).bind fun text => ?_
  refine Triple.get_bind fun s₀ hs₀ => ?_
  have hat : ∀ s, s = s₀ →
      env.At c₀ (heading env.sha256 s.run shape text).1 (heading env.sha256 s.run shape text).2 s ∧
        s₀.run.context.tools.map ToolDefinition.schema = s.run.context.tools.map ToolDefinition.schema := by
    intro s hs
    rw [hs]
    exact ⟨hs₀, rfl⟩
  refine Triple.pre ?_ hat
  refine (triple_recordHeader (by simp [Unsettled]) (by simp [Unsettled])).bind fun _ => ?_
  refine Triple.get_bind fun s₁ hs₁ => ?_
  have hheaded : ∀ s, s = s₁ →
      env.At c₀ [] (.headed shape text (s₀.run.context.tools.map ToolDefinition.schema)) s ∧
        windowed shape.historyWindow s₁.run.context.messages = windowed shape.historyWindow s.run.context.messages := by
    intro s hs
    rw [hs]
    exact ⟨hs₁, rfl⟩
  refine Triple.pre ?_ hheaded
  refine (triple_transform (by simp [Unsettled])).bind fun messages => ?_
  refine Triple.get_bind fun s₂ hs₂ => ?_
  refine Triple.bind (Q := fun _ => env.At c₀ [] (.streaming false)) ?_ fun _ => ?_
  · refine triple_act fun s hs => ?_
    rw [hs]
    exact hs₂.act (.chosen .requested)
  · refine (triple_wait (by simp [Unsettled])).bind fun _ => ?_
    exact triple_receive fuel (by simp [Unsettled])

/-! ## The tools of a reply -/

/-- A batch, up to its outcome. -/
theorem triple_runBatch {tools : List ToolDefinition} (fuel : ℕ) {batch : Batch} :
    Triple (env.At c₀ [] (batchNode reply tools batch)) (env.runBatch tools fuel batch)
      (fun outcome => env.At c₀ [] (.reporting reply outcome outcome.results [])) (env.Short c₀ Unsettled) := by
  have hnode : ∀ batch : Batch, Unsettled (batchNode reply tools batch) := by
    intro batch
    rw [Unsettled, batchNode]
    split <;> simp
  induction fuel generalizing batch with
  | zero => exact Triple.throw fun s hs => ⟨[], _, hnode batch, hs⟩
  | succ fuel ih =>
    refine (triple_wait (hnode batch)).bind fun event => ?_
    cases houtcome : batch.outcome? with
    | some outcome =>
      have hreporting : batchNode reply tools batch = .reporting reply outcome outcome.results [] := by
        rw [batchNode, houtcome]
      rw [hreporting]
      exact Triple.pure fun s hs => hs
    | none =>
      have hbatching : batchNode reply tools batch = .batching reply tools batch := by rw [batchNode, houtcome]
      refine Triple.get_bind fun s₀ hs₀ => ?_
      have hat : ∀ s, s = s₀ → env.At c₀ [] (batchNode reply tools batch) s := fun s hs => hs ▸ hs₀
      cases htake : batch.take tools (s₀.run.agent.controller == some true) event with
      | none => exact Triple.pre ih hat
      | some taken =>
        obtain ⟨happened, next⟩ := taken
        rw [hbatching] at hs₀
        refine Triple.bind (Q := fun _ => env.At c₀
          ((batch.hooks next s₀.run.agent.pendingToolCalls).map .effect ++ [])
          (batchNode reply tools next)) ?_ fun _ => ?_
        · refine triple_act fun s hs => ?_
          rw [hs, List.append_nil]
          exact hs₀.act (.chosen (.stepped htake))
        · refine Triple.bind (Q := fun _ => env.At c₀ [] (batchNode reply tools next)) ?_ fun _ => ih
          exact triple_effects (Batch.not_log_of_mem_hooks batch next _)

theorem triple_reportResult {outcome : BatchOutcome} {result : ToolResult} {results : List ToolResult}
    {toolResults : List Message} :
    Triple (env.At c₀ [] (.reporting reply outcome (result :: results) toolResults)) (env.reportResult outcome result)
      (fun message => env.At c₀ [] (.reporting reply outcome results (toolResults ++ [message])))
      (env.Short c₀ Unsettled) := by
  refine Triple.get_bind fun s₀ hs₀ => ?_
  refine Triple.pre ?_ fun s (hs : s = s₀) =>
    (hs ▸ hs₀ : env.At c₀ [] (.reporting reply outcome (result :: results) toolResults) s)
  refine (triple_choose fun s => .reported (env.now s₀.world)).bind fun _ => ?_
  refine Triple.bind (Q := fun _ => env.At c₀ []
    (.adding reply outcome result results (toolResults ++ [.toolResult (result.toMessage (env.now s₀.world))]))) ?_
    fun _ => ?_
  · rw [← List.append_nil (passing _ _)]
    exact triple_passMessage (by simp [Unsettled])
  · refine Triple.get_bind fun s₁ hs₁ => ?_
    refine Triple.bind (Q := fun _ => env.At c₀ []
      (.reporting reply outcome results (toolResults ++ [.toolResult (result.toMessage (env.now s₀.world))]))) ?_
      fun _ => ?_
    · refine triple_act fun s hs => ?_
      rw [hs]
      exact hs₁.act (.chosen (.added _))
    · exact Triple.pure fun s hs => hs

theorem triple_reportResults {outcome : BatchOutcome} {results : List ToolResult} {toolResults : List Message} :
    Triple (env.At c₀ [] (.reporting reply outcome results toolResults)) (env.reportResults outcome results)
      (fun messages => env.At c₀ [] (.reporting reply outcome [] (toolResults ++ messages)))
      (env.Short c₀ Unsettled) := by
  induction results generalizing toolResults with
  | nil =>
    refine Triple.pure fun s hs => ?_
    rw [List.append_nil]
    exact hs
  | cons result results ih =>
    refine triple_reportResult.bind fun message => ?_
    refine ih.bind fun messages => ?_
    refine Triple.pure fun s hs => ?_
    rwa [List.append_assoc, List.singleton_append] at hs

theorem triple_logCalls {calls : List ToolCallBlock} (hok : ok node) :
    Triple (env.At c₀ (calls.map (fun call => logging (.toolCall call)) ++ rest) node)
      (calls.forM fun call => env.log (.toolCall call)) (fun _ => env.At c₀ rest node) (env.Short c₀ ok) := by
  induction calls with
  | nil => exact Triple.pure fun s hs => hs
  | cons call calls ih => exact (triple_log hok).bind fun _ => ih

/-- Where a turn ends. -/
def nodeAfter (result : StepResult) : Node :=
  if result.terminal then .ending { reason := result.message.stopReason.value }
  else .turned result.hasMoreToolCalls result.hardTerminated

/-! ## Turns -/

/-- The tools of a reply that did not fail. -/
theorem triple_runTools (fuel : ℕ) (hreply : reply.failed = false) :
    Triple (env.At c₀ (replied reply).1 (replied reply).2) (env.runTools fuel reply)
      (fun result => env.At c₀ [] (nodeAfter result)) (env.Short c₀ Unsettled) := by
  by_cases hcalls : reply.toolCalls = []
  · have hreplied : replied reply = (endingTurn reply [] ++ [], .turned false false) := by
      simp [replied, hreply, hcalls]
    have hlogs : (reply.toolCalls.forM fun call => env.log (.toolCall call)) = pure () := by rw [hcalls]; rfl
    rw [hreplied, runTools, hlogs, if_pos hcalls]
    simp only [pure_bind]
    refine (triple_endTurn (by simp [Unsettled])).bind fun _ => ?_
    exact Triple.pure fun s hs => hs
  · have hreplied : replied reply =
        (reply.toolCalls.map (fun call => logging (.toolCall call)) ++ [], .beginning reply) := by
      simp [replied, hreply, hcalls]
    rw [hreplied, runTools, if_neg hcalls]
    refine (triple_logCalls (by simp [Unsettled])).bind fun _ => ?_
    refine Triple.get_bind fun s₀ hs₀ => ?_
    refine Triple.bind (Q := fun _ => env.At c₀ [] (batchNode reply s₀.run.context.tools
      { calls := reply.toolCalls,
        mode := batchMode reply s₀.run.context.tools (env.scopeDisposed s₀.world) })) ?_ fun _ => ?_
    · refine triple_act fun s hs => ?_
      rw [hs]
      exact hs₀.act (.chosen (.began _))
    · refine (triple_runBatch fuel).bind fun outcome => ?_
      refine triple_reportResults.bind fun toolResults => ?_
      refine (triple_choose fun s => .resulted).bind fun _ => ?_
      refine Triple.bind (Q := fun _ => env.At c₀ [] (.turned (!outcome.terminate) outcome.terminate)) ?_ fun _ => ?_
      · rw [List.nil_append, ← List.append_nil (endingTurn _ _)]
        exact triple_endTurn (by simp [Unsettled])
      · exact Triple.pure fun s hs => hs

/-- One turn. -/
theorem triple_runStep (fuel : ℕ) {reason : PreStepReason} {openTurn : Bool} :
    Triple (env.At c₀ (if openTurn then startingTurn reason else []) (.prompting shape))
      (env.runStep fuel shape reason openTurn) (fun result => env.At c₀ [] (nodeAfter result))
      (env.Short c₀ Unsettled) := by
  refine Triple.bind (Q := fun _ => env.At c₀ [] (.prompting shape)) ?_ fun _ => ?_
  · cases openTurn with
    | true =>
      rw [if_pos rfl, ← List.append_nil (startingTurn reason)]
      exact triple_startTurn (by simp [Unsettled])
    | false => exact Triple.pure fun s hs => hs
  · refine (triple_request fuel).bind fun received => ?_
    obtain ⟨reply, opened⟩ := received
    have hunsettled : Unsettled (replied reply).2 := by
      unfold replied
      split <;> [skip; split] <;> simp [Unsettled]
    refine (triple_finishReply hunsettled).bind fun _ => ?_
    cases hreply : reply.failed with
    | true =>
      have hreplied : replied reply = (endingTurn reply [] ++ [], .ending { reason := reply.stopReason.value }) := by
        simp [replied, hreply]
      simp only [hreplied, if_true]
      refine (triple_endTurn (by simp [Unsettled])).bind fun _ => ?_
      exact Triple.pure fun s hs => hs
    | false => exact triple_runTools fuel hreply

/-- A run that is to end in a certain way. -/
def Ending (env : LoopEnvironment W) (c₀ : Config) (ending : RunEnding) (s : LoopState W) : Prop :=
  ∃ node, Unsettled node ∧ env.At c₀ [] node s ∧
    ∀ s, Choice env.toLoopSetting node s (.ended ending.reason ending.detail)
      (endingRun s ending.reason ending.detail) .over

theorem ending_of_node {ending : RunEnding} {s : LoopState W} (h : env.At c₀ [] (.ending ending) s) :
    env.Ending c₀ ending s :=
  ⟨_, by simp [Unsettled], h, fun _ => .ended⟩

/-- A decision about input, if what follows an entry leads to an end. -/
theorem triple_decideEntry {asked : List Message} {reason : PreStepReason} {stage : Stage}
    {next : Shape → Driver W RunEnding}
    (h : ∀ shape, Triple (env.At c₀ (stage.next reason shape).1 (stage.next reason shape).2) (next shape)
      (env.Ending c₀) (env.Short c₀ Unsettled)) :
    Triple (env.At c₀ [] (.deciding asked reason stage)) (env.decideEntry asked reason next) (env.Ending c₀)
      (env.Short c₀ Unsettled) := by
  have hunsettled : ∀ shape, Unsettled (stage.next reason shape).2 := by
    intro shape
    cases stage with
    | first skip => cases skip <;> simp [Stage.next, Unsettled]
    | steered | later => simp [Stage.next, Unsettled]
  have hdecide : Triple (env.At c₀ [] (.deciding asked reason stage)) (env.askPreStep asked reason)
      (fun decision => env.At c₀ (deciding reason stage decision).1 (deciding reason stage decision).2)
      (env.Short c₀ Unsettled) := by
    refine (triple_wait (by simp [Unsettled])).bind fun decision => ?_
    exact (triple_choose fun s => .decided decision).bind fun _ => Triple.pure fun s hs => hs
  refine hdecide.bind fun decision => ?_
  cases decision with
  | reject detail => exact Triple.pure fun s hs => ending_of_node hs
  | enter messages systemOverride historyWindow =>
    exact (triple_admitMessages (hunsettled _)).bind fun _ => h _

/-- The turns of a run, from a decision on. -/
theorem triple_turns (fuel : ℕ) {reason : PreStepReason} {openTurn : Bool} :
    Triple (env.At c₀ (if openTurn then startingTurn reason else []) (.prompting shape))
      (env.turns fuel shape reason openTurn) (env.Ending c₀) (env.Short c₀ Unsettled) := by
  induction fuel generalizing shape reason openTurn with
  | zero => exact Triple.throw fun s hs => ⟨_, _, by simp [Unsettled], hs⟩
  | succ fuel ih =>
    have hlater : ∀ (reason : PreStepReason) (shape : Shape),
        Triple (env.At c₀ (Stage.later.next reason shape).1 (Stage.later.next reason shape).2)
          (env.turns fuel shape reason true) (env.Ending c₀) (env.Short c₀ Unsettled) := by
      intro reason shape
      exact @ih shape reason true
    refine (triple_runStep fuel).bind fun result => ?_
    cases hterminal : result.terminal with
    | true =>
      rw [if_pos rfl]
      refine Triple.pure fun s hs => ?_
      rw [nodeAfter, if_pos hterminal] at hs
      exact ending_of_node hs
    | false =>
      have hnode : nodeAfter result = .turned result.hasMoreToolCalls result.hardTerminated := by
        simp [nodeAfter, hterminal]
      rw [if_neg (by simp), hnode]
      have hprepare : Triple (env.At c₀ [] (.turned result.hasMoreToolCalls result.hardTerminated))
          (env.prepareNext result)
          (fun _ => env.At c₀ [] (.stopping result.hasMoreToolCalls result.hardTerminated))
          (env.Short c₀ Unsettled) :=
        (triple_wait (by simp [Unsettled])).bind fun update => triple_choose fun s => .updated update
      refine hprepare.bind fun _ => ?_
      have hasked : Triple (env.At c₀ [] (.stopping result.hasMoreToolCalls result.hardTerminated))
          (env.askStopping result)
          (fun _ => env.At c₀ [] (.stopping result.hasMoreToolCalls result.hardTerminated))
          (env.Short c₀ Unsettled) := by
        refine (triple_wait (by simp [Unsettled])).bind fun decision => ?_
        cases decision with
        | none => exact Triple.pure fun s hs => hs
        | some decision => exact Triple.pure fun s hs => hs
      refine hasked.bind fun stop => ?_
      cases stop with
      | true =>
        rw [if_pos rfl]
        exact Triple.pure fun s hs => ⟨_, by simp [Unsettled], hs, fun _ => .stopped⟩
      | false =>
        rw [if_neg (by simp)]
        -- no tool call is left and nothing was queued: follow-ups are looked for
        let N (envelopes : List InputEnvelope) : Node :=
          if !result.hasMoreToolCalls && envelopes.isEmpty then .followups result.hardTerminated
          else .deciding (envelopes.map InputEnvelope.message)
            (if envelopes.isEmpty then .toolResults else .steering) .later
        refine Triple.bind (triple_claim (N := N) fun s envelopes hclaims => ?_) fun stepInput => ?_
        · simp only [N]
          cases hgoing : !result.hasMoreToolCalls && envelopes.isEmpty with
          | true =>
            obtain ⟨hmore, hempty⟩ := Bool.and_eq_true_iff.mp hgoing
            rw [Bool.not_eq_true'] at hmore
            rw [List.isEmpty_iff] at hempty
            rw [if_pos rfl, hmore, hempty]
            rw [hempty] at hclaims
            exact .exhausted hclaims
          | false =>
            rw [if_neg (by simp)]
            exact .going hclaims hgoing
        · simp only [N]
          cases hgoing : !result.hasMoreToolCalls && stepInput.isEmpty with
          | false =>
            simp only [Bool.false_eq_true, if_false]
            exact triple_decideEntry (hlater _)
          | true =>
            rw [if_pos rfl, if_pos rfl]
            let F (envelopes : List InputEnvelope) : Node :=
              if envelopes.isEmpty then
                .ending { reason := if result.hardTerminated then "terminated" else "completed" }
              else .extending envelopes
            refine Triple.bind (triple_claim (N := F) fun s envelopes hclaims => ?_) fun followups => ?_
            · simp only [F]
              cases envelopes with
              | nil => exact .completed hclaims
              | cons envelope envelopes => exact .followed hclaims (by simp)
            · simp only [F]
              cases followups with
              | nil => exact Triple.pure fun s hs => ending_of_node hs
              | cons envelope envelopes =>
                refine (triple_choose fun s => .extended).bind fun _ => ?_
                exact triple_decideEntry (hlater _)

/-- `_run_inner`, from the start of its first turn. -/
theorem triple_runInner (fuel : ℕ) {begun : Begun} :
    Triple
      (env.At c₀ (startingTurn .initial)
        (.deciding begun.entering .initial (.first begun.skipInitialSteeringPoll)))
      (env.runInner fuel begun) (env.Ending c₀) (env.Short c₀ Unsettled) := by
  have hturns : ∀ shape, Triple (env.At c₀ [] (.prompting shape)) (env.turns fuel shape .initial false) (env.Ending c₀)
      (env.Short c₀ Unsettled) := by
    intro shape
    exact @triple_turns W env c₀ shape fuel .initial false
  refine Triple.bind (Q := fun _ =>
    env.At c₀ [] (.deciding begun.entering .initial (.first begun.skipInitialSteeringPoll))) ?_ fun _ => ?_
  · rw [← List.append_nil (startingTurn _)]
    exact triple_startTurn (by simp [Unsettled])
  · refine triple_decideEntry fun shape => ?_
    cases hskip : begun.skipInitialSteeringPoll with
    | true => exact hturns shape
    | false =>
      rw [if_neg (by simp)]
      let N (envelopes : List InputEnvelope) : Node :=
        if envelopes.isEmpty then .prompting shape
        else .deciding (envelopes.map InputEnvelope.message) .steering .steered
      refine Triple.bind (triple_claim (N := N) fun s envelopes hclaims => ?_) fun steering => ?_
      · simp only [N]
        cases envelopes with
        | nil => exact .unpolled hclaims
        | cons envelope envelopes => exact .polled hclaims (by simp)
      · simp only [N]
        cases steering with
        | nil => exact hturns shape
        | cons envelope envelopes =>
          simp only [List.isEmpty_cons, Bool.false_eq_true, if_false]
          exact triple_decideEntry hturns

/-! ## Runs -/

theorem triple_endRun {ending : RunEnding} :
    Triple (env.Ending c₀ ending) (env.endRun ending) (fun _ => env.At c₀ [] .over) (env.Short c₀ Unsettled) := by
  refine Triple.bind (Q := fun _ s => env.At c₀ (endingRun s.run ending.reason ending.detail) .over s) ?_ fun _ => ?_
  · refine triple_act fun s hs => ?_
    obtain ⟨node, -, hat, hchoice⟩ := hs
    exact hat.act (.chosen (hchoice s.run))
  · refine Triple.get_bind fun s₀ hs₀ => ?_
    have hat : ∀ s, s = s₀ → env.At c₀ (endingRun s₀.run ending.reason ending.detail) .over s := fun s hs => hs ▸ hs₀
    refine Triple.pre ?_ hat
    refine triple_write.bind fun _ => ?_
    refine (triple_log (by simp [Unsettled])).bind fun _ => ?_
    exact triple_dispatch_nil (by simp [Unsettled])

theorem triple_settleRunFailure {failure : Failure} {stop : Stop} :
    Triple (env.Short c₀ Unsettled stop) (env.settleRunFailure failure) (fun _ => env.At c₀ [] .settled)
      (env.Short c₀ fun _ => True) := by
  refine Triple.bind (Q := fun _ s => env.At c₀ (settling s.run (env.str failure)) .settled s) ?_ fun _ => ?_
  · refine triple_act fun s hs => ?_
    obtain ⟨script, node, hunsettled, hat⟩ := hs
    exact hat.act (.failed _ hunsettled)
  · refine Triple.get_bind fun s₀ hs₀ => ?_
    have hat : ∀ s, s = s₀ → env.At c₀ (settling s₀.run (env.str failure)) .settled s := fun s hs => hs ▸ hs₀
    refine Triple.pre ?_ hat
    refine triple_write.bind fun _ => ?_
    refine (triple_dispatch trivial).bind fun _ => ?_
    refine triple_write.bind fun _ => ?_
    refine (triple_log trivial).bind fun _ => ?_
    refine (triple_dispatch trivial).bind fun _ => ?_
    refine triple_write.bind fun _ => ?_
    refine (triple_log trivial).bind fun _ => ?_
    refine (triple_dispatch trivial).bind fun _ => ?_
    refine (triple_log trivial).bind fun _ => ?_
    exact triple_dispatch_nil trivial

/-- A whole run. -/
theorem triple_runGuarded (fuel : ℕ) {begun : Begun} {s₀ : LoopState W} :
    Triple (fun s => s = s₀ ∧ s₀.actions = []) (env.runGuarded fuel begun)
      (fun _ s => env.At (begin begun s₀.run) [] .over s ∨ env.At (begin begun s₀.run) [] .settled s)
      (env.Short (begin begun s₀.run) fun _ => True) := by
  refine Triple.tryCatch (F := env.Short (begin begun s₀.run) Unsettled) ?_ fun stop => ?_
  · refine Triple.get_bind fun s₁ hs₁ => ?_
    obtain ⟨rfl, hactions⟩ := hs₁
    have hat : ∀ s, s = s₁ → env.At (begin begun s₁.run)
        (logging (.agentStart s₁.run.causes) :: dispatching (.agentStart s₁.run.causes) ++ startingTurn .initial)
        (.deciding begun.entering .initial (.first begun.skipInitialSteeringPoll)) s := by
      intro s hs
      rw [hs, At, hactions]
      exact .nil
    refine Triple.pre ?_ hat
    refine (triple_log (by simp [Unsettled])).bind fun _ => ?_
    refine (triple_dispatch (by simp [Unsettled])).bind fun _ => ?_
    refine (triple_runInner fuel).bind fun ending => ?_
    exact triple_endRun.imp fun _ s hs => Or.inl hs
  · have hraise : ∀ stop', Triple (env.Short (begin begun s₀.run) Unsettled stop) (throw stop')
        (fun (_ : Unit) s => env.At (begin begun s₀.run) [] .over s ∨ env.At (begin begun s₀.run) [] .settled s)
        (env.Short (begin begun s₀.run) fun _ => True) := by
      intro stop'
      refine Triple.throw fun s hs => ?_
      obtain ⟨script, node, -, hat⟩ := hs
      exact ⟨script, node, trivial, hat⟩
    have hsettle : ∀ failure, Triple (env.Short (begin begun s₀.run) Unsettled stop) (env.settleRunFailure failure)
        (fun _ s => env.At (begin begun s₀.run) [] .over s ∨ env.At (begin begun s₀.run) [] .settled s)
        (env.Short (begin begun s₀.run) fun _ => True) :=
      fun failure => triple_settleRunFailure.imp fun _ s hs => Or.inr hs
    cases stop with
    | outOfFuel => exact hraise _
    | failure failure =>
      cases failure with
      | unknownModel message => exact hraise _
      | base => exact hraise _
      | active message => exact hsettle _
      | transcript => exact hsettle _
      | exception message => exact hsettle _

/-- The actions of every run keep the protocol, whether the run returns, raises
or runs out of fuel; a run that returns is over, or its failure is settled. -/
theorem run_of_executeRun {fuel : ℕ} {begun : Begun} {world : W} {agent : AgentInstance} {artifacts : ArtifactStore}
    {outcome : Except Stop Unit} {s : LoopState W}
    (h : env.executeRun fuel begun world agent artifacts = some (outcome, s)) :
    ∃ messages, agent.messages = some messages ∧ ∃ script node,
      Run env.toLoopSetting (begin begun (env.start begun world agent artifacts messages).run) s.actions
        ⟨script, node, s.run⟩ ∧
      (outcome = .ok () → script = [] ∧ (node = .over ∨ node = .settled)) := by
  rw [executeRun] at h
  obtain ⟨messages, hmessages, h⟩ := Option.bind_eq_some_iff.mp h
  refine ⟨messages, hmessages, ?_⟩
  have hends := @triple_runGuarded W env fuel begun (env.start begun world agent artifacts messages) _ ⟨rfl, rfl⟩
  rw [Option.some.inj h] at hends
  cases outcome with
  | ok u =>
    obtain hover | hsettled := hends
    · exact ⟨[], .over, hover, fun _ => ⟨rfl, Or.inl rfl⟩⟩
    · exact ⟨[], .settled, hsettled, fun _ => ⟨rfl, Or.inr rfl⟩⟩
  | error stop =>
    obtain ⟨script, node, -, hat⟩ := hends
    exact ⟨script, node, hat, fun hok => by cases hok⟩

end LoopEnvironment

end MinionAgent
