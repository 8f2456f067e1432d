import MinionAgent.Agent.Inbox
import MinionAgent.Library.Supply
import MinionAgent.Session.Derive

/-!
# MinionAgent.Agent.Instance

One live agent (`agent/identity.py`, `agent/instance.py`): its status, log,
inbox and current configuration.

Code around an agent (observers, listeners, tools, other tasks) reaches it
through its public operations.  `AgentAction` lists them; what a piece of such
code does is a list of actions and an outcome (`Response`).
-/

namespace MinionAgent

/-- Whether an instance is currently working. -/
inductive AgentStatus
  | idle
  | running
deriving DecidableEq

/-- Requested reasoning level for future turns. -/
inductive ThinkingLevel
  | off
  | minimal
  | low
  | medium
  | high
  | xhigh
  | max
deriving DecidableEq

/-- One conversation with one agent.  `controller` is the active run's abort
controller, and whether it was aborted; `drawn` counts the ids drawn so far. -/
structure AgentInstance where
  sessions : Sessions
  log : Nat
  status : AgentStatus := .idle
  inbox : Inbox := {}
  drawn : Nat := 0
  systemPrompt : String := ""
  model : ModelId
  thinkingLevel : ThinkingLevel := .off
  streamingMessage : Option Message := none
  pendingToolCalls : List String := []
  errorMessage : Option String := none
  controller : Option Bool := none

/-- What a call on an agent can raise.  `base` is an exception that is no
`Exception`, such as a cancellation. -/
inductive Failure
  | active (message : String)
  | transcript
  | unknownModel (message : String)
  | exception (message : String)
  | base
deriving DecidableEq

/-- Whether `except Exception` catches it. -/
def Failure.isException : Failure → Bool
  | .base => false
  | _ => true

/-! ## What other code can do -/

/-- The public operations on an agent, its log and its inbox. -/
inductive AgentAction
  | send (message : Message) (target : InboxTarget) (wakeup : Bool) (origin : Py.Value)
  | claim (target : InboxTarget) (policy : ClaimPolicy)
  | clear (target : InboxTarget)
  | takeWake
  | session (operation : Operation)
  | setStatus (status : AgentStatus)
  | setSystemPrompt (text : String)
  | setModel (model : ModelId)
  | setThinkingLevel (level : ThinkingLevel)
  | setStreamingMessage (message : Option Message)
  | setPendingToolCalls (ids : List String)
  | setErrorMessage (message : Option String)
  | abort

/-- What a piece of other code does, and how it ends. -/
structure Response (α : Type) where
  actions : List AgentAction := []
  outcome : Except Failure α

namespace AgentInstance

/-- The current transcript. -/
def messages (agent : AgentInstance) : Option (List Message) := agent.sessions.deriveMessages agent.log

/-- One public operation; a rejected one changes nothing. -/
def act (uuid : Nat → String) (agent : AgentInstance) : AgentAction → AgentInstance
  | .send message target wakeup origin =>
    match agent.inbox.send (uuid agent.drawn) message target wakeup origin with
    | .ok (_, inbox) => { agent with inbox, drawn := agent.drawn + 1 }
    | .error _ => agent
  | .claim target policy => { agent with inbox := (agent.inbox.claim target policy).2 }
  | .clear target => { agent with inbox := agent.inbox.clear target }
  | .takeWake => { agent with inbox := agent.inbox.takeWake.2 }
  | .session operation => { agent with sessions := agent.sessions.step operation }
  | .setStatus status => { agent with status }
  | .setSystemPrompt text => { agent with systemPrompt := text }
  | .setModel model => { agent with model }
  | .setThinkingLevel level => { agent with thinkingLevel := level }
  | .setStreamingMessage message => { agent with streamingMessage := message }
  | .setPendingToolCalls ids => { agent with pendingToolCalls := ids }
  | .setErrorMessage message => { agent with errorMessage := message }
  | .abort => { agent with controller := agent.controller.map fun _ => true }

/-- Several operations. -/
def perform (uuid : Nat → String) (agent : AgentInstance) (actions : List AgentAction) : AgentInstance :=
  actions.foldl (act uuid) agent

/-! ## The ids of queued envelopes -/

/-- The ids queued at a target. -/
def queuedIds (agent : AgentInstance) (target : InboxTarget) : List String :=
  (agent.inbox.queue target).map InputEnvelope.id

/-- The queues of `agent'` are those of `agent` less what was taken and with
newly drawn ids. -/
def QueuesFrom (uuid : Nat → String) (agent agent' : AgentInstance) : Prop :=
  ∀ target, Supply.Supplies uuid agent.drawn (agent.queuedIds target) agent'.drawn (agent'.queuedIds target)

/-- Every queued id was drawn, and none is queued twice at a target. -/
def Fresh (uuid : Nat → String) (agent : AgentInstance) : Prop :=
  ∀ target, Supply.Supplied uuid agent.drawn (agent.queuedIds target)

variable {uuid : Nat → String}

theorem QueuesFrom.refl (agent : AgentInstance) : QueuesFrom uuid agent agent := fun _ => .refl _ _

theorem QueuesFrom.trans {agent agent' agent'' : AgentInstance} (h : QueuesFrom uuid agent agent')
    (h' : QueuesFrom uuid agent' agent'') : QueuesFrom uuid agent agent'' :=
  fun target => (h target).trans (h' target)

/-- What leaves the queues and the draws as they are. -/
theorem QueuesFrom.of_queue_eq {agent agent' : AgentInstance}
    (hqueue : ∀ target, agent'.inbox.queue target = agent.inbox.queue target)
    (hdrawn : agent'.drawn = agent.drawn) : QueuesFrom uuid agent agent' := by
  intro target
  rw [queuedIds, queuedIds, hqueue, hdrawn]
  exact .refl _ _

theorem QueuesFrom.of_eq {agent agent' : AgentInstance} (hinbox : agent'.inbox = agent.inbox)
    (hdrawn : agent'.drawn = agent.drawn) : QueuesFrom uuid agent agent' :=
  .of_queue_eq (fun target => by rw [hinbox]) hdrawn

theorem queuesFrom_act (agent : AgentInstance) (action : AgentAction) :
    QueuesFrom uuid agent (agent.act uuid action) := by
  cases action with
  | send message target wakeup origin =>
    simp only [act]
    cases hsend : agent.inbox.send (uuid agent.drawn) message target wakeup origin with
    | error e => exact .refl agent
    | ok result =>
      obtain ⟨envelope, inbox⟩ := result
      obtain ⟨rfl, hqueue⟩ := Inbox.queue_send hsend
      intro other
      simp only [queuedIds, hqueue]
      by_cases htarget : target = other
      · rw [if_pos htarget, List.map_append]
        exact .concat _ _
      · rw [if_neg htarget]
        exact .skip _ _
  | claim target policy =>
    intro other
    simp only [act, queuedIds, Inbox.queue_claim]
    refine .of_sublist ?_ _
    split
    · exact (List.drop_sublist _ _).map _
    · exact List.Sublist.refl _
  | clear target =>
    intro other
    simp only [act, queuedIds, Inbox.queue_clear]
    refine .of_sublist ?_ _
    split
    · exact List.nil_sublist _
    · exact List.Sublist.refl _
  | takeWake =>
    intro other
    simp only [act, queuedIds, Inbox.takeWake, Inbox.queue_wake]
    exact .refl _ _
  | session operation => exact .of_eq rfl rfl
  | setStatus status => exact .of_eq rfl rfl
  | setSystemPrompt text => exact .of_eq rfl rfl
  | setModel model => exact .of_eq rfl rfl
  | setThinkingLevel level => exact .of_eq rfl rfl
  | setStreamingMessage message => exact .of_eq rfl rfl
  | setPendingToolCalls ids => exact .of_eq rfl rfl
  | setErrorMessage message => exact .of_eq rfl rfl
  | abort => exact .of_eq rfl rfl

theorem queuesFrom_perform (agent : AgentInstance) (actions : List AgentAction) :
    QueuesFrom uuid agent (agent.perform uuid actions) := by
  induction actions generalizing agent with
  | nil => exact .refl agent
  | cons action actions ih => exact (queuesFrom_act agent action).trans (ih _)

theorem QueuesFrom.fresh {agent agent' : AgentInstance} (huuid : Function.Injective uuid)
    (h : QueuesFrom uuid agent agent') (hfresh : agent.Fresh uuid) : agent'.Fresh uuid :=
  fun target => (h target).supplied huuid (hfresh target)

/-! ## Batches set aside -/

/-- An agent with a batch put ahead of what is queued at a target. -/
def putBack (agent : AgentInstance) (target : InboxTarget) (held : List InputEnvelope) : AgentInstance :=
  { agent with inbox := agent.inbox.setQueue target (held ++ agent.inbox.queue target) }

theorem queuedIds_putBack (agent : AgentInstance) (target : InboxTarget) (held : List InputEnvelope)
    (other : InboxTarget) :
    (agent.putBack target held).queuedIds other =
      (if target = other then held.map InputEnvelope.id else []) ++ agent.queuedIds other := by
  simp only [queuedIds, putBack, Inbox.queue_setQueue]
  split
  · next htarget => rw [List.map_append, htarget]
  · rfl

/-- A batch can be put back after the change as well as before it. -/
theorem QueuesFrom.putBack {agent agent' : AgentInstance} (h : QueuesFrom uuid agent agent') (target : InboxTarget)
    (held : List InputEnvelope) : QueuesFrom uuid (agent.putBack target held) (agent'.putBack target held) := by
  intro other
  rw [queuedIds_putBack, queuedIds_putBack]
  exact (h other).prepend _

/-- A batch that is not put back. -/
theorem queuesFrom_of_putBack (agent : AgentInstance) (target : InboxTarget) (held : List InputEnvelope) :
    QueuesFrom uuid (agent.putBack target held) agent := by
  intro other
  rw [queuedIds_putBack]
  exact .of_sublist (List.sublist_append_right _ _) _

/-- An agent with nothing queued. -/
theorem fresh_of_empty {agent : AgentInstance} (h : ∀ target, agent.inbox.queue target = []) : agent.Fresh uuid := by
  intro target
  rw [queuedIds, h target]
  exact ⟨List.nodup_nil, by simp⟩

end AgentInstance

end MinionAgent
