import MinionAgent.AgentLoop.Protocol

/-!
# MinionAgent.AgentLoop.Lookahead

What a run has done and owes.

The operations of a script come one after the other, with other code in
between, but what they come to is known when they are decided.  `Config.ahead`
is what a run has done together with what it owes: it grows by choices only, so
a property of it is kept if every choice keeps it.

* `Run.preserves` — induction on a run;
* `Run.ahead` — from what choices keep to what runs keep;
* `Run.newMessages` — the run's own messages are those that it admitted.
-/

namespace MinionAgent

/-- What other code did is no action of the run's own. -/
def LoopAction.isTold : LoopAction → Bool
  | .answered _ _ => false
  | _ => true

/-- The actions of the run's own. -/
def told (actions : List LoopAction) : List LoopAction := actions.filter LoopAction.isTold

@[simp] theorem told_nil : told [] = [] := rfl

@[simp] theorem told_own (effect : LoopEffect) : told [.own effect] = [.own effect] := rfl

@[simp] theorem told_answered (actions : List AgentAction) (context : Option RunContext) :
    told [.answered actions context] = [] := rfl

@[simp] theorem told_failed (text : String) : told [.failed text] = [.failed text] := rfl

@[simp] theorem told_append (actions actions' : List LoopAction) :
    told (actions ++ actions') = told actions ++ told actions' :=
  List.filter_append ..

/-- A reading that passes over what other code did reads what is told. -/
theorem filterMap_told {β : Type} {f : LoopAction → Option β}
    (h : ∀ actions context, f (.answered actions context) = none) (actions : List LoopAction) :
    (told actions).filterMap f = actions.filterMap f := by
  induction actions with
  | nil => rfl
  | cons action actions ih =>
    cases action with
    | answered others context =>
      rw [List.filterMap_cons_none (h others context)]
      exact ih
    | _ =>
      change (_ :: told actions).filterMap f = _
      rw [List.filterMap_cons, List.filterMap_cons, ih]

/-- The message that an action admits. -/
def LoopAction.admitted? : LoopAction → Option Message
  | .own (.newMessage message) => some message
  | _ => none

/-- A run's own messages grow by what it admits. -/
theorem RunState.newMessages_apply (setting : LoopSetting) (s : RunState) (action : LoopAction) :
    (s.apply setting action).newMessages = s.newMessages ++ [action].filterMap LoopAction.admitted? := by
  cases action with
  | own effect => cases effect <;> simp [apply, RunState.effect, act, LoopAction.admitted?]
  | _ => simp [apply, act, extendCauses, update, LoopAction.admitted?]

namespace Protocol

/-- What is expected, as an action. -/
def Expected.action? : Expected → Option LoopAction
  | .effect operation => some (.own operation)
  | .answer => none

/-- The actions that a script stands for. -/
def coming (script : Script) : List LoopAction := script.filterMap Expected.action?

@[simp] theorem coming_nil : coming [] = [] := rfl

@[simp] theorem coming_effect (effect : LoopEffect) (script : Script) :
    coming (.effect effect :: script) = .own effect :: coming script := rfl

@[simp] theorem coming_answer (script : Script) : coming (.answer :: script) = coming script := rfl

@[simp] theorem coming_append (script script' : Script) :
    coming (script ++ script') = coming script ++ coming script' :=
  List.filterMap_append

@[simp] theorem coming_effects (effects : List LoopEffect) :
    coming (effects.map .effect) = effects.map LoopAction.own := by
  induction effects with
  | nil => rfl
  | cons effect effects ih => rw [List.map_cons, coming_effect, ih, List.map_cons]

/-- What a run has done and owes. -/
def Config.ahead (c : Config) (actions : List LoopAction) : List LoopAction := told actions ++ coming c.script

variable {setting : LoopSetting} {c c' : Config} {actions : List LoopAction}

/-- What the start has and every step keeps, a run has. -/
theorem Run.preserves {I : List LoopAction → Config → Prop} (hnil : I [] c)
    (hstep : ∀ actions c₁ action c₂, Run setting c actions c₁ → Step setting c₁ action c₂ → I actions c₁ →
      I (actions ++ [action]) c₂)
    (h : Run setting c actions c') : I actions c' := by
  induction h with
  | nil => exact hnil
  | step hrun hlast ih => exact hstep _ _ _ _ hrun hlast ih

/-- Every action of a run is a step from where the actions before it lead. -/
theorem Run.reaches (h : Run setting c actions c') {before after : List LoopAction} {action : LoopAction}
    (hsplit : actions = before ++ action :: after) : ∃ c₁ c₂, Run setting c before c₁ ∧ Step setting c₁ action c₂ := by
  induction h generalizing after with
  | nil => simp at hsplit
  | step hrun hlast ih =>
    obtain rfl | ⟨after, last, rfl⟩ := List.eq_nil_or_concat after
    · obtain ⟨rfl, hlast'⟩ := List.append_inj' hsplit rfl
      obtain rfl := List.singleton_inj.mp hlast'
      exact ⟨_, _, hrun, hlast⟩
    · rw [List.concat_eq_append, ← List.cons_append, ← List.append_assoc] at hsplit
      exact ih (List.append_inj' hsplit rfl).1

/-- A choice is no answer of other code. -/
theorem Choice.isTold {node node' : Node} {s : RunState} {action : LoopAction} {script : Script}
    (h : Choice setting node s action script node') : action.isTold = true := by
  cases h <;> rfl

theorem deciding_unsettled (reason : PreStepReason) (stage : Stage) (decision : PreStepDecision Message) :
    Unsettled (deciding reason stage decision).2 := by
  cases decision with
  | reject detail => exact Node.noConfusion
  | enter messages systemOverride historyWindow =>
    cases stage with
    | first skip => cases skip <;> exact Node.noConfusion
    | steered | later => exact Node.noConfusion

theorem heading_unsettled (sha256 : ByteArray → String) (s : RunState) (shape : Shape) (text : String) :
    Unsettled (heading sha256 s shape text).2 := by
  rw [heading]
  split <;> exact Node.noConfusion

theorem replied_unsettled (reply : AssistantMessage) : Unsettled (replied reply).2 := by
  rw [replied]
  split
  · exact Node.noConfusion
  · split <;> exact Node.noConfusion

theorem receiving_unsettled (opened : Bool) (chunk : StreamChunk) : Unsettled (receiving opened chunk).2 := by
  cases chunk with
  | start message | update event => exact Node.noConfusion
  | done reply | error _ reply => exact replied_unsettled reply

theorem batchNode_unsettled (reply : AssistantMessage) (tools : List ToolDefinition) (batch : Batch) :
    Unsettled (batchNode reply tools batch) := by
  rw [batchNode]
  split <;> exact Node.noConfusion

/-- No choice leads to a failure that is settled. -/
theorem Choice.unsettled {node node' : Node} {s : RunState} {action : LoopAction} {script : Script}
    (h : Choice setting node s action script node') : Unsettled node' := by
  cases h with
  | decided decision => exact deciding_unsettled _ _ decision
  | prompted => exact heading_unsettled _ _ _ _
  | received chunk => exact receiving_unsettled _ chunk
  | began | stepped => exact batchNode_unsettled _ _ _
  | _ => exact Node.noConfusion

/-- Where a failure is settled, nothing is chosen. -/
theorem Choice.pending {node node' : Node} {s : RunState} {action : LoopAction} {script : Script}
    (h : Choice setting node s action script node') : Unsettled node := by
  rintro rfl
  cases h

/-- What is ahead at the start and every choice keeps, is ahead until a failure
is settled. -/
theorem Run.ahead {I : List LoopAction → Node → Prop} (hnil : I (coming c.script) c.node)
    (hchoice : ∀ actions node s action script node', Run setting c actions ⟨[], node, s⟩ →
      Choice setting node s action script node' → I (told actions) node →
      I (told actions ++ action :: coming script) node')
    (h : Run setting c actions c') (hunsettled : Unsettled c'.node) : I (c'.ahead actions) c'.node := by
  refine Run.preserves (I := fun actions c' => Unsettled c'.node → I (c'.ahead actions) c'.node) (fun _ => hnil)
    ?_ h hunsettled
  intro actions c₁ action c₂ hrun hstep ih hunsettled
  cases hstep with
  | effect allowed => simpa [Config.ahead] using ih hunsettled
  | answered | waited => simpa [Config.ahead] using ih hunsettled
  | failed text => exact absurd rfl hunsettled
  | @chosen node node' s action script choice =>
    have hahead := hchoice _ _ _ _ _ _ hrun choice (by simpa [Config.ahead] using ih choice.pending)
    have htold : told [action] = [action] := List.filter_eq_self.mpr (by simpa using choice.isTold)
    simpa [Config.ahead, htold] using hahead

/-- The run's own messages are those that it admitted. -/
theorem Run.newMessages (h : Run setting c actions c') :
    c'.run.newMessages = c.run.newMessages ++ actions.filterMap LoopAction.admitted? := by
  refine Run.preserves (I := fun actions c' =>
    c'.run.newMessages = c.run.newMessages ++ actions.filterMap LoopAction.admitted?) (by simp) ?_ h
  intro actions c₁ action c₂ hrun hstep ih
  have hadded : c₂.run.newMessages = c₁.run.newMessages ++ [action].filterMap LoopAction.admitted? := by
    cases hstep with
    | failed text => simp [LoopAction.admitted?]
    | _ => exact RunState.newMessages_apply _ _ _
  rw [hadded, ih, List.filterMap_append, List.append_assoc]

/-- Until a failure is settled, there was none. -/
theorem Run.not_failed (h : Run setting c actions c') (hunsettled : Unsettled c'.node) (text : String) :
    .failed text ∉ actions := by
  refine Run.preserves (I := fun actions c' => Unsettled c'.node → .failed text ∉ actions) (by simp) ?_ h hunsettled
  intro actions c₁ action c₂ hrun hstep ih hunsettled hmem
  obtain hmem | hmem := List.mem_append.mp hmem
  · refine ih (fun hsettled => ?_) hmem
    cases hstep with
    | chosen choice => exact choice.pending hsettled
    | failed text hnode => exact hnode hsettled
    | _ => exact hunsettled hsettled
  · obtain rfl := List.mem_singleton.mp hmem
    cases hstep with
    | chosen choice => cases choice
    | failed text => exact hunsettled rfl

/-- A failure that is settled was met somewhere on the way, and what it is
settled with has been done or is owed. -/
theorem Run.failure (h : Run setting c actions c') (hsettled : c'.node = .settled) (hbegan : Unsettled c.node) :
    ∃ before text script node s done, Run setting c before ⟨script, node, s⟩ ∧ Unsettled node ∧
      told actions = told before ++ .failed text :: done ∧ done ++ coming c'.script = coming (settling s text) := by
  refine Run.preserves (I := fun actions c' => c'.node = .settled → ∃ before text script node s done,
    Run setting c before ⟨script, node, s⟩ ∧ Unsettled node ∧ told actions = told before ++ .failed text :: done ∧
      done ++ coming c'.script = coming (settling s text)) (fun hsettled => absurd hsettled hbegan) ?_ h hsettled
  intro actions c₁ action c₂ hrun hstep ih hsettled
  cases hstep with
  | @effect effect rest node s allowed =>
    obtain ⟨before, text, script, node, s, done, hbefore, hnode, htold, hdone⟩ := ih hsettled
    exact ⟨before, text, script, node, s, done ++ [.own effect], hbefore, hnode, by simp [htold], by simpa using hdone⟩
  | answered | waited =>
    obtain ⟨before, text, script, node, s, done, hbefore, hnode, htold, hdone⟩ := ih hsettled
    exact ⟨before, text, script, node, s, done, hbefore, hnode, by simp [htold], by simpa using hdone⟩
  | failed text hnode => exact ⟨actions, text, _, _, _, [], hrun, hnode, by simp, rfl⟩
  | chosen choice =>
    exact absurd hsettled choice.unsettled

end Protocol

end MinionAgent
