import MinionAgent.AgentLoop.DriverProtocol
import MinionAgent.AgentLoop.RunHistory

/-!
# MinionAgent.AgentLoop.ModelVisible

Model-visible means logged (`session/events.py`): after a run, every request
that it made can be rebuilt from its log and the artifacts.

* `Balanced` — a run admits the messages that it logs, in the same order;
* `Presents` — a request has the messages of the run's context;
* `Heads` — a request's text and tools are those of the last header;
* `requests_logged` — what the log says of a request.

The conditions are on what surrounds the run: nobody else adds to the log or
changes the context, and no request is transformed or cut.
-/

namespace MinionAgent

open Py

/-- Nobody changes the messages that a run shows the model. -/
def LoopAction.KeepsHistory : LoopAction → Prop
  | .answered _ context => context = none
  | .updated update => update.context = none
  | .decided _ _ (.enter _ _ historyWindow) => historyWindow = none
  | .transformed given returned => returned = given
  | _ => True

instance : DecidablePred LoopAction.KeepsHistory := fun action =>
  match action with
  | .answered _ context => inferInstanceAs (Decidable (context = none))
  | .updated update => inferInstanceAs (Decidable (update.context = none))
  | .decided _ _ (.enter _ _ historyWindow) => inferInstanceAs (Decidable (historyWindow = none))
  | .transformed given returned => inferInstanceAs (Decidable (returned = given))
  | .decided _ _ (.reject _) | .own _ | .claimed _ _ _ | .extended _ | .prompted _ | .transforming _ | .requested _
  | .received _ | .began _ | .stepped _ | .reported _ | .added _ | .resulted _ | .ended _ _ | .failed _ =>
    .isTrue trivial

/-- The text that an action stores. -/
def LoopAction.stored? : LoopAction → Option String
  | .own (.store text) => some text
  | _ => none

/-- The texts that a run stores. -/
def stored (actions : List LoopAction) : List String := actions.filterMap LoopAction.stored?

namespace RunState

variable {setting : LoopSetting} {s : RunState}

/-- The messages of the context: those of the start, and what was admitted. -/
theorem context_apply {action : LoopAction} (hkeeps : action.KeepsHistory) :
    (s.apply setting action).context.messages =
      s.context.messages ++ [action].filterMap LoopAction.admitted? := by
  cases action with
  | own effect => cases effect <;> simp [apply, effect, act, LoopAction.admitted?]
  | answered others context =>
    obtain rfl : context = none := hkeeps
    simp [apply, LoopAction.admitted?]
  | updated update =>
    have hcontext : update.context = none := hkeeps
    simp [apply, RunState.update, LoopAction.admitted?, hcontext]
  | _ => simp [apply, act, extendCauses, LoopAction.admitted?]

/-- The configuration changes between turns only. -/
theorem config_apply (action : LoopAction) (haction : ∀ update, action ≠ .updated update) :
    (s.apply setting action).config = s.config := by
  cases action with
  | own effect => cases effect <;> rfl
  | updated update => exact absurd rfl (haction update)
  | _ => rfl

end RunState

/-! ## Messages -/

/-- The messages that are logged and those that are admitted. -/
def Balanced (actions : List LoopAction) : Prop :=
  (logged actions).filterMap LoopEntry.surface? = actions.filterMap LoopAction.admitted?

theorem Balanced.append {actions actions' : List LoopAction} (h : Balanced actions) (h' : Balanced actions') :
    Balanced (actions ++ actions') := by
  rw [Balanced, logged_append, List.filterMap_append, List.filterMap_append]
  exact congrArg₂ _ h h'

namespace Protocol

variable {setting : LoopSetting} {c c' : Config} {node node' : Node} {s : RunState} {action : LoopAction}
  {actions : List LoopAction} {script : Script}

theorem balanced_admitting (messages : List Message) : Balanced (coming (admitting messages)) := by
  induction messages with
  | nil => rfl
  | cons message messages ih =>
    rw [admitting, List.flatMap_cons, coming_append]
    have hpassing : Balanced (coming (passing message (.userMessage message))) := rfl
    exact hpassing.append ih

theorem balanced_endingTurn (reply : AssistantMessage) (toolResults : List Message) :
    Balanced (coming (endingTurn reply toolResults)) := by
  rw [endingTurn]
  split <;> rfl

theorem balanced_replied (reply : AssistantMessage) : Balanced (coming (replied reply).1) := by
  rw [replied]
  split
  · exact balanced_endingTurn reply []
  · split
    · exact balanced_endingTurn reply []
    · generalize reply.toolCalls = calls
      induction calls with
      | nil => rfl
      | cons call calls ih =>
        have hcall : Balanced (coming [logging (.toolCall call)]) := rfl
        exact hcall.append ih

theorem balanced_hooks (batch next : Batch) (pending : List String) :
    Balanced (coming ((batch.hooks next pending).map .effect)) := by
  rw [Batch.hooks]
  cases next.items[batch.items.length]? with
  | none => rfl
  | some item =>
    rw [Option.elim_some, BatchItem.effects]
    cases batch.calls[item.call]? with
    | none => rfl
    | some call => cases item <;> rfl

/-- A choice leads to as many messages logged as admitted. -/
theorem Choice.balanced (h : Choice setting node s action script node') : Balanced (action :: coming script) := by
  have hcons : ∀ action : LoopAction, action.own? = none → Balanced (coming script) →
      Balanced (action :: coming script) := by
    intro action haction hscript
    cases action with
    | own effect => cases haction
    | _ => exact hscript
  refine hcons action h.not_own ?_
  cases h with
  | @decided asked reason stage s decision =>
    cases decision with
    | reject detail => rfl
    | enter messages systemOverride historyWindow =>
      rw [deciding, coming_append]
      refine (balanced_admitting messages).append ?_
      cases stage <;> rfl
  | prompted =>
    rw [heading]
    split <;> rfl
  | @received opened s chunk =>
    cases chunk with
    | start message | update event => rfl
    | done reply | error _ reply =>
      rw [receiving, coming_append]
      refine Balanced.append ?_ (balanced_replied reply)
      cases opened <;> rfl
  | stepped => exact balanced_hooks _ _ _
  | resulted => exact balanced_endingTurn _ _
  | _ => rfl

/-- Where a run has come to a node, it has admitted what it logged. -/
theorem Run.balanced {begun : Begun} {s : RunState} {node : Node} {s' : RunState}
    (h : Run setting (begin begun s) actions ⟨[], node, s'⟩) (hunsettled : Unsettled node) : Balanced actions := by
  have hstart : Balanced (coming (begin begun s).script) := rfl
  have hahead := Run.ahead (I := fun actions _ => Balanced actions) hstart
    (fun actions node s action script node' _ hchoice ih => Balanced.append ih hchoice.balanced) h hunsettled
  rw [Config.ahead, coming_nil, List.append_nil, Balanced, logged_told, filterMap_told fun _ _ => rfl] at hahead
  exact hahead

/-! ## The context -/

/-- What a run is about to show has not been cut or changed. -/
def Presents (c : Config) : Prop :=
  match c.node with
  | .polling shape | .prompting shape | .headed shape _ _ => shape.historyWindow = none
  | .transforming _ _ messages | .requesting _ _ messages => c.script = [] ∧ messages = c.run.context.messages
  | _ => True

/-- A choice presents the context, if nobody changes what the model is shown. -/
theorem Choice.presents (h : Choice setting node s action script node') (hpresents : Presents ⟨[], node, s⟩)
    (hkeeps : action.KeepsHistory) : Presents ⟨script, node', s.apply setting action⟩ := by
  cases h with
  | @decided asked reason stage s decision =>
    cases decision with
    | reject detail => exact trivial
    | enter messages systemOverride historyWindow =>
      cases stage with
      | first skip => cases skip <;> exact hkeeps
      | steered | later => exact hkeeps
  | unpolled => exact hpresents
  | @prompted shape s text =>
    rw [heading]
    split
    · exact trivial
    · exact hpresents
  | @transforming shape text schemas s =>
    have hwindow : shape.historyWindow = none := hpresents
    refine ⟨rfl, ?_⟩
    rw [hwindow]
    rfl
  | transformed returned =>
    obtain ⟨-, hgiven⟩ := hpresents
    exact ⟨rfl, Eq.trans hkeeps hgiven⟩
  | @received opened s chunk =>
    cases chunk with
    | start message | update event => exact trivial
    | done reply | error _ reply =>
      rw [receiving, replied]
      split
      · exact trivial
      · split <;> exact trivial
  | began | stepped =>
    rw [batchNode]
    split <;> exact trivial
  | _ => exact trivial

theorem Run.presents {begun : Begun} (h : Run setting (begin begun s) actions c)
    (hkeeps : ∀ action ∈ actions, action.KeepsHistory) :
    c.run.context.messages = s.context.messages ++ actions.filterMap LoopAction.admitted? ∧ Presents c := by
  refine Run.preserves (I := fun actions c => (∀ action ∈ actions, action.KeepsHistory) →
    c.run.context.messages = s.context.messages ++ actions.filterMap LoopAction.admitted? ∧ Presents c) ?_ ?_ h hkeeps
  · exact fun _ => ⟨(List.append_nil _).symm, trivial⟩
  · intro actions c₁ action c₂ hrun hstep ih hkeeps
    obtain ⟨hcontext, hpresents⟩ := ih fun other hother => hkeeps other (List.mem_append_left _ hother)
    have hlast := hkeeps action (by simp)
    have hsame : ∀ s' : RunState,
        s'.context.messages = c₁.run.context.messages ++ [action].filterMap LoopAction.admitted? →
        s'.context.messages = s.context.messages ++ (actions ++ [action]).filterMap LoopAction.admitted? := by
      intro s' hs'
      rw [hs', hcontext, List.filterMap_append, List.append_assoc]
    cases hstep with
    | @effect effect rest node s' allowed =>
      refine ⟨hsame _ (RunState.context_apply hlast), ?_⟩
      cases node with
      | transforming | requesting => exact absurd hpresents.1 (List.cons_ne_nil _ _)
      | _ => exact hpresents
    | @answered rest node s' others context =>
      refine ⟨hsame _ (RunState.context_apply hlast), ?_⟩
      cases node with
      | transforming | requesting => exact absurd hpresents.1 (List.cons_ne_nil _ _)
      | _ => exact hpresents
    | @waited node s' others context =>
      refine ⟨hsame _ (RunState.context_apply hlast), ?_⟩
      obtain rfl : context = none := hlast
      cases node with
      | _ => exact hpresents
    | chosen choice =>
      exact ⟨hsame _ (RunState.context_apply hlast), choice.presents hpresents hlast⟩
    | failed text =>
      exact ⟨hsame _ (List.append_nil _).symm, trivial⟩

/-! ## The header -/

/-- The last header is about this text and these tools, which are stored. -/
def Heads (sha256 : ByteArray → String) (model text : String) (schemas : List ToolSchema) (actions : List LoopAction) :
    Prop :=
  ∃ payload, toolsPayload schemas = some payload ∧
    ((logged actions).reverse.find? fun entry => entry.kind == EventKind.requestHeader) =
      some (.requestHeader (headerData sha256 [("system_base", text)] model payload)) ∧
    text ∈ stored actions ∧ payload ∈ stored actions

/-- Where a request is under way, its header is the last one, or comes next. -/
def Headed (sha256 : ByteArray → String) (actions : List LoopAction) (c : Config) : Prop :=
  match c.node with
  | .headed _ text schemas | .transforming text schemas _ | .requesting text schemas _ =>
    Heads sha256 c.run.config.model.model text schemas (actions ++ coming c.script)
  | _ => True

theorem Heads.quiet {sha256 : ByteArray → String} {model text : String} {schemas : List ToolSchema}
    {before after : List LoopAction} (h : Heads sha256 model text schemas (before ++ after)) {action : LoopAction}
    (haction : action.own? = none) : Heads sha256 model text schemas (before ++ [action] ++ after) := by
  have hlogged : logged (before ++ [action] ++ after) = logged (before ++ after) := by
    cases action with
    | own effect => cases haction
    | _ => simp [logged, List.filterMap_cons, LoopAction.logged?]
  have hstored : stored (before ++ [action] ++ after) = stored (before ++ after) := by
    cases action with
    | own effect => cases haction
    | _ => simp [stored, List.filterMap_cons, LoopAction.stored?]
  rw [Heads, hlogged, hstored]
  exact h

theorem Choice.headed (h : Choice setting node s action script node')
    (hheaded : Headed setting.sha256 actions ⟨[], node, s⟩) :
    Headed setting.sha256 (actions ++ [action]) ⟨script, node', s.apply setting action⟩ := by
  cases h with
  | @decided asked reason stage s decision =>
    cases decision with
    | reject detail => exact trivial
    | enter messages systemOverride historyWindow =>
      cases stage with
      | first skip => cases skip <;> exact trivial
      | steered | later => exact trivial
  | @prompted shape s text =>
    rw [heading]
    cases hpayload : toolsPayload (s.context.tools.map ToolDefinition.schema) with
    | none => exact trivial
    | some payload =>
      refine ⟨payload, hpayload, ?_, ?_, ?_⟩
      · rw [logged_append, List.reverse_append]
        rfl
      · exact List.mem_filterMap.mpr ⟨.own (.store text), by simp, rfl⟩
      · exact List.mem_filterMap.mpr ⟨.own (.store payload), by simp, rfl⟩
  | transforming => exact Heads.quiet hheaded rfl
  | transformed returned => exact Heads.quiet hheaded rfl
  | @received opened s chunk =>
    cases chunk with
    | start message | update event => exact trivial
    | done reply | error _ reply =>
      rw [receiving, replied]
      split
      · exact trivial
      · split <;> exact trivial
  | began | stepped =>
    rw [batchNode]
    split <;> exact trivial
  | _ => exact trivial

theorem Run.headed {begun : Begun} (h : Run setting (begin begun s) actions c) :
    Headed setting.sha256 actions c := by
  refine Run.preserves (I := fun actions c => Headed setting.sha256 actions c) ?_ ?_ h
  · exact trivial
  intro actions c₁ action c₂ hrun hstep ih
  cases hstep with
  | @effect effect rest node s' allowed =>
    have hconfig := @RunState.config_apply setting s' (.own effect) (by simp)
    cases node with
    | headed | transforming | requesting =>
      rw [Headed] at ih ⊢
      simp only [hconfig]
      simpa using ih
    | _ => exact trivial
  | @answered rest node s' others context =>
    cases node with
    | headed | transforming | requesting => exact Heads.quiet ih rfl
    | _ => exact trivial
  | @waited node s' others context =>
    cases node with
    | headed | transforming | requesting => exact Heads.quiet ih rfl
    | _ => exact trivial
  | chosen choice => exact choice.headed ih
  | failed text => exact trivial

/-! ## The artifacts -/

/-- A run puts its texts into the store, one after the other. -/
theorem Run.artifacts {begun : Begun} (h : Run setting (begin begun s) actions c) :
    c.run.artifacts = (stored actions).foldl (ArtifactStore.putText setting.sha256) s.artifacts := by
  refine Run.preserves (I := fun actions c =>
    c.run.artifacts = (stored actions).foldl (ArtifactStore.putText setting.sha256) s.artifacts) rfl ?_ h
  intro actions c₁ action c₂ hrun hstep ih
  have hsame : ∀ s' : RunState, s'.artifacts = (stored [action]).foldl (ArtifactStore.putText setting.sha256)
      c₁.run.artifacts → s'.artifacts =
        (stored (actions ++ [action])).foldl (ArtifactStore.putText setting.sha256) s.artifacts := by
    intro s' hs'
    rw [hs', ih, stored, stored, stored, List.filterMap_append, List.foldl_append]
  cases hstep with
  | @effect effect => cases effect <;> exact hsame _ rfl
  | answered | waited | failed => exact hsame _ rfl
  | chosen choice => cases choice <;> exact hsame _ rfl

/-- What a run stored is read back. -/
theorem Run.getText? {begun : Begun} (h : Run setting (begin begun s) actions c)
    (hfree : CollisionFree setting.sha256 (s.artifacts.contents ++ (stored actions).map String.toUTF8)) :
    ∀ text ∈ stored actions,
      c.run.artifacts.getText? setting.sha256 (ArtifactStore.reference setting.sha256 text.toUTF8) = some text := by
  intro text htext
  rw [h.artifacts]
  have hstore : (stored actions).foldl (ArtifactStore.putText setting.sha256) s.artifacts =
      storeComponents setting.sha256 s.artifacts ((stored actions).map fun text => ("", text)) := by
    rw [storeComponents, List.foldl_map]
  rw [hstore]
  refine ArtifactStore.getText?_of_storeComponents (List.prefix_refl _) hfree (fun component hcomponent => ?_)
    (List.subset_append_left _ _) ("", text) (List.mem_map_of_mem htext)
  obtain ⟨other, hother, rfl⟩ := List.mem_map.mp hcomponent
  exact List.mem_append_right _ (List.mem_map_of_mem hother)

end Protocol

/-! ## Requests and the log -/

/-- What a log and a store say of a request: up to one of the log's events, it
derives to the request's messages, and its last header gives the request's
model, system text and tools, which come with sorted keys. -/
def Recorded (sha256 : ByteArray → String) (floats : Json.FloatReader) (sessions : Sessions) (log : ℕ)
    (artifacts : ArtifactStore) (request : Request) : Prop :=
  ∃ node limit header components read, sessions.log? log = some node ∧
    sessions.derive log limit = some request.messages ∧
    latestOf (node.events.take limit) EventKind.requestHeader = some header ∧
    header.data.lookup "model" = some (.str request.model.model) ∧
    reconstructHeader sha256 header.data artifacts = some components ∧ assembleSystem components = request.system ∧
    reconstructTools sha256 floats header.data artifacts = some read ∧ List.Forall₂ ToolSchema.Same read request.tools

/-- Model-visible means logged: whatever becomes of a run, each request that
it made is recorded in its log. -/
theorem LoopEnvironment.requests_recorded {W : Type} {env : LoopEnvironment W} {fuel : ℕ} {begun : Begun}
    {world : W} {agent : AgentInstance} {artifacts : ArtifactStore} {outcome : Except Stop Unit} {s : LoopState W}
    (h : env.executeRun fuel begun world agent artifacts = some (outcome, s)) {node : SessionLog}
    (hnode : agent.sessions.log? agent.log = some node) (hpast : SupersedesPast node)
    (hothers : ∀ action ∈ s.actions, action.LeavesLog agent.log ∧ action.KeepsHistory)
    (hfree : CollisionFree env.sha256 (artifacts.contents ++ (stored s.actions).map String.toUTF8))
    (floats : Json.FloatReader) :
    ∀ request, .requested request ∈ s.actions →
      (∀ tool ∈ request.tools, (Value.dict tool.parameters).IsJson) →
      Recorded env.sha256 floats s.run.agent.sessions agent.log s.run.artifacts request := by
  intro request hrequest hparameters
  obtain ⟨messages, hmessages, script, last, hrun, -⟩ := env.run_of_executeRun h
  obtain ⟨before, after, hsplit⟩ := List.append_of_mem hrequest
  obtain ⟨c₁, c₂, hbefore, hstep⟩ := hrun.reaches hsplit
  have hearlier : ∀ action ∈ before, action ∈ s.actions := fun action haction =>
    hsplit ▸ List.mem_append_left _ haction
  have hpresents := hbefore.presents fun action haction => (hothers action (hearlier action haction)).2
  have hheaded := hbefore.headed
  cases hstep with
  | @chosen place place' s₁ action script' choice =>
    cases choice with
    | @requested text schemas given s₁ =>
      have hbalanced := hbefore.balanced Protocol.Node.noConfusion
      obtain ⟨hcontext, -, hgiven⟩ := hpresents
      change given = s₁.context.messages at hgiven
      change s₁.context.messages = messages ++ _ at hcontext
      have hjournal := hrun.journal hnode fun action haction => (hothers action haction).1
      have hprefix : logged before <+: logged s.actions := by
        rw [hsplit, logged_append]
        exact List.prefix_append _ _
      have hderive := hjournal.derive_take hnode hpast hprefix
      obtain ⟨payload, hpayload, hlast, htext, hstored⟩ := hheaded
      rw [Protocol.coming_nil, List.append_nil] at hlast htext hstored
      change agent.sessions.log? agent.log = some node at hnode
      obtain ⟨final, ⟨hfinal, -⟩, -, -, htake⟩ := hjournal.take_events
      obtain ⟨seq, hheader⟩ := latestOf_written hlast s.run.causes node.events.length
      have hread := hrun.getText? hfree
      have hsub : ∀ text ∈ stored before, text ∈ stored s.actions := fun text htext => by
        rw [stored, hsplit, List.filterMap_append]
        exact List.mem_append_left _ htext
      have hcomponents : reconstructHeader env.sha256 (headerData env.sha256 [("system_base", text)]
          s₁.config.model.model payload) s.run.artifacts = some [("system_base", text)] := by
        refine reconstructHeader_headerData fun component hcomponent => ?_
        obtain rfl := List.mem_singleton.mp hcomponent
        exact hread text (hsub text htext)
      obtain ⟨read, htools, hsame⟩ := @reconstructTools_headerData env.sha256 floats s.run.artifacts
        [("system_base", text)] s₁.config.model.model payload schemas hpayload (hread payload (hsub payload hstored))
        hparameters
      refine ⟨final, node.events.length + (logged before).length,
        (LoopEntry.requestHeader (headerData env.sha256 [("system_base", text)] s₁.config.model.model payload)).event
          s.run.causes seq, [("system_base", text)], read, hfinal, ?_, ?_, ?_, hcomponents, rfl, htools, hsame⟩
      · refine hderive.trans ?_
        change agent.messages.map _ = _
        rw [hmessages, Option.map_some, hbalanced, ← hcontext, ← hgiven]
        rfl
      · rw [htake _ hprefix]
        exact hheader
      · rfl

/-- The request that an action makes. -/
def LoopAction.requested? : LoopAction → Option Request
  | .requested request => some request
  | _ => none

/-- The second request of a run with a tool call: the prompt, the call and its
result are in the log. -/
theorem LoopEnvironment.requests_recorded_scripted : ∃ s request, scriptedRun = some (.ok (), s) ∧
    request.messages.length = 3 ∧
    Recorded scripted.sha256 reprReader s.run.agent.sessions scriptedAgent.log s.run.artifacts request := by
  have hreturns : Returns (fun s =>
      decide (∀ action ∈ s.actions, action.LeavesLog scriptedAgent.log ∧ action.KeepsHistory) &&
        (s.actions.filterMap LoopAction.requested?).any fun request =>
          request.messages.length == 3 && request.tools == [echoTool.schema]) scriptedRun = true := by decide +kernel
  obtain ⟨s, hs, hchecked⟩ := exists_of_returns hreturns
  rw [Bool.and_eq_true] at hchecked
  obtain ⟨hothers, hany⟩ := hchecked
  obtain ⟨request, hrequest, hthree⟩ := List.any_eq_true.mp hany
  rw [Bool.and_eq_true, beq_iff_eq, beq_iff_eq] at hthree
  obtain ⟨action, haction, heq⟩ := List.mem_filterMap.mp hrequest
  have hmem : LoopAction.requested request ∈ s.actions := by
    cases action with
    | requested other =>
      cases heq
      exact haction
    | _ => cases heq
  have hparameters : ∀ tool ∈ request.tools, (Value.dict tool.parameters).IsJson := by
    rw [hthree.2]
    intro tool htool
    obtain rfl := List.mem_singleton.mp htool
    simp [echoTool, Value.IsJson, Value.IsJsonItems]
  have hpast : SupersedesPast ⟨⟨"s", .core⟩, none, []⟩ := by
    intro compaction hcompaction
    cases hcompaction
  refine ⟨s, request, hs, hthree.1, ?_⟩
  exact requests_recorded hs rfl hpast (of_decide_eq_true hothers) (contentDigest_collisionFree _) reprReader
    request hmem
    hparameters

end MinionAgent
