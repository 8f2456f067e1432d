import MinionAgent.AgentLoop.Entry
import MinionAgent.Session.RustSession

/-!
# MinionAgent.AgentLoop.RustEntry

Entering a run in the Rust binding (`agent/inbox.rs`, `agent/instance.rs`,
`agent_loop/driver.rs`): `continue_run` and `run_until_idle`.

Other threads may use the agent between any two steps that lock it.  The
steps of a call are numbered, and `meanwhile` says what the others do before
each.
-/

namespace MinionAgent.Rust

open Py

/-! ## The inbox -/

inductive InboxTarget
  | steering
  | followUp
deriving DecidableEq

structure InputEnvelope where
  id : String
  target : InboxTarget
  message : Message
  origin : Option Value
deriving DecidableEq

structure Inbox where
  steering : List InputEnvelope := []
  followUp : List InputEnvelope := []
  wakeRequested : Bool := false
deriving DecidableEq

namespace Inbox

def queue (inbox : Inbox) : InboxTarget → List InputEnvelope
  | .steering => inbox.steering
  | .followUp => inbox.followUp

def setQueue (inbox : Inbox) (target : InboxTarget) (envelopes : List InputEnvelope) : Inbox :=
  match target with
  | .steering => { inbox with steering := envelopes }
  | .followUp => { inbox with followUp := envelopes }

@[simp] theorem queue_setQueue (inbox : Inbox) (target other : InboxTarget) (envelopes : List InputEnvelope) :
    (inbox.setQueue target envelopes).queue other = if target = other then envelopes else inbox.queue other := by
  cases target <;> cases other <;> rfl

@[simp] theorem queue_wakeRequested (inbox : Inbox) (wakeRequested : Bool) (target : InboxTarget) :
    ({ inbox with wakeRequested } : Inbox).queue target = inbox.queue target := by
  cases target <;> rfl

/-- `enqueue`, under the fresh `id`. -/
def enqueue (inbox : Inbox) (id : String) (target : InboxTarget) (message : Message) (origin : Option Value)
    (requestWake : Bool) : Inbox :=
  let envelope : InputEnvelope := { id, target, message, origin }
  let queued := inbox.setQueue target (inbox.queue target ++ [envelope])
  { queued with wakeRequested := queued.wakeRequested || requestWake }

/-- `claim`: the whole queue or its first envelope. -/
def claim (inbox : Inbox) (target : InboxTarget) (policy : ClaimPolicy) : List InputEnvelope × Inbox :=
  match policy with
  | .all => (inbox.queue target, inbox.setQueue target [])
  | .oneAtATime => ((inbox.queue target).take 1, inbox.setQueue target ((inbox.queue target).drop 1))

def hasPending (inbox : Inbox) : Bool := !inbox.steering.isEmpty || !inbox.followUp.isEmpty

def clear (inbox : Inbox) (target : InboxTarget) : Inbox := inbox.setQueue target []

def takeWake (inbox : Inbox) : Bool × Inbox := (inbox.wakeRequested, { inbox with wakeRequested := false })

/-- A claim splits its queue and leaves the other. -/
theorem claim_queue (inbox : Inbox) (target : InboxTarget) (policy : ClaimPolicy) :
    (inbox.claim target policy).1 ++ (inbox.claim target policy).2.queue target = inbox.queue target ∧
      ∀ other, target ≠ other → (inbox.claim target policy).2.queue other = inbox.queue other := by
  constructor
  · cases policy with
    | all => simp [claim]
    | oneAtATime =>
      rw [claim, queue_setQueue, if_pos rfl]
      exact List.take_append_drop 1 _
  · intro other hother
    cases policy <;> simp [claim, hother]

end Inbox

/-! ## The agent -/

/-- What a run was caused by. -/
structure RunCause where
  id : String
  origin : Option Value
deriving DecidableEq

/-- What a run begins with. -/
structure Begun where
  entering : List Message
  causes : List RunCause
  skipInitialSteeringPoll : Bool
deriving DecidableEq

structure AgentInstance where
  sessions : Sessions
  session : Nat
  status : AgentStatus := .idle
  inbox : Inbox := {}
  drawn : Nat := 0
  streamingMessage : Option Message := none
  pendingToolCalls : List String := []
  errorMessage : Option String := none
  abortController : Option Bool := none

/-- What an entry returns instead of a run's messages. -/
inductive AgentLoopError
  | active
  | continueActive
  | noMessagesToContinue
  | cannotContinueFromAssistant
  | session (error : SessionError)
  | other (message : String)

/-- The public operations on an agent, its session and its inbox. -/
inductive AgentAction
  | enqueue (target : InboxTarget) (message : Message) (origin : Option Value) (requestWake : Bool)
  | claim (target : InboxTarget) (policy : ClaimPolicy)
  | clear (target : InboxTarget)
  | takeWake
  | session (operation : Operation)
  | setStatus (status : AgentStatus)
  | setStreamingMessage (message : Option Message)
  | setPendingToolCalls (ids : List String)
  | setErrorMessage (message : Option String)
  | setAbortController (controller : Option Bool)

namespace AgentInstance

def act (uuid : Nat → String) (agent : AgentInstance) : AgentAction → AgentInstance
  | .enqueue target message origin requestWake =>
    { agent with
      inbox := agent.inbox.enqueue (uuid agent.drawn) target message origin requestWake
      drawn := agent.drawn + 1 }
  | .claim target policy => { agent with inbox := (agent.inbox.claim target policy).2 }
  | .clear target => { agent with inbox := agent.inbox.clear target }
  | .takeWake => { agent with inbox := agent.inbox.takeWake.2 }
  | .session operation => { agent with sessions := agent.sessions.step operation }
  | .setStatus status => { agent with status }
  | .setStreamingMessage message => { agent with streamingMessage := message }
  | .setPendingToolCalls ids => { agent with pendingToolCalls := ids }
  | .setErrorMessage message => { agent with errorMessage := message }
  | .setAbortController controller => { agent with abortController := controller }

def perform (uuid : Nat → String) (agent : AgentInstance) (actions : List AgentAction) : AgentInstance :=
  actions.foldl (act uuid) agent

/-- The ids queued at a target. -/
def queuedIds (agent : AgentInstance) (target : InboxTarget) : List String :=
  (agent.inbox.queue target).map InputEnvelope.id

/-- The queues of `agent'` are those of `agent` less what was taken and with
newly drawn ids. -/
def QueuesFrom (uuid : Nat → String) (agent agent' : AgentInstance) : Prop :=
  ∀ target, Supply.Supplies uuid agent.drawn (agent.queuedIds target) agent'.drawn (agent'.queuedIds target)

/-- Every queued id was drawn, and none is queued twice at a target. -/
def Fresh (uuid : Nat → String) (agent : AgentInstance) : Prop :=
  ∀ target, Supply.Supplied uuid agent.drawn (agent.queuedIds target)

variable {uuid : Nat → String}

theorem QueuesFrom.refl (agent : AgentInstance) : QueuesFrom uuid agent agent := fun _ => .refl _ _

theorem QueuesFrom.trans {agent agent' agent'' : AgentInstance} (h : QueuesFrom uuid agent agent')
    (h' : QueuesFrom uuid agent' agent'') : QueuesFrom uuid agent agent'' :=
  fun target => (h target).trans (h' target)

theorem QueuesFrom.of_eq {agent agent' : AgentInstance} (hinbox : agent'.inbox = agent.inbox)
    (hdrawn : agent'.drawn = agent.drawn) : QueuesFrom uuid agent agent' := by
  intro target
  rw [queuedIds, queuedIds, hinbox, hdrawn]
  exact .refl _ _

/-- An agent with nothing queued. -/
theorem fresh_of_empty {agent : AgentInstance} (h : ∀ target, agent.inbox.queue target = []) : agent.Fresh uuid := by
  intro target
  rw [queuedIds, h target]
  exact ⟨List.nodup_nil, by simp⟩

theorem queuesFrom_act (agent : AgentInstance) (action : AgentAction) :
    QueuesFrom uuid agent (agent.act uuid action) := by
  cases action with
  | enqueue target message origin requestWake =>
    intro other
    simp only [act, queuedIds, Inbox.enqueue, Inbox.queue_wakeRequested, Inbox.queue_setQueue]
    by_cases htarget : target = other
    · subst htarget
      rw [if_pos rfl, List.map_append]
      exact .concat _ _
    · rw [if_neg htarget]
      exact .skip _ _
  | claim target policy =>
    intro other
    obtain ⟨hsplit, hothers⟩ := agent.inbox.claim_queue target policy
    refine .of_sublist ?_ _
    by_cases htarget : target = other
    · subst htarget
      simp only [queuedIds, act]
      rw [← hsplit, List.map_append]
      exact List.sublist_append_right _ _
    · simp only [queuedIds, act, hothers other htarget]
      exact List.Sublist.refl _
  | clear target =>
    intro other
    simp only [act, queuedIds, Inbox.clear, Inbox.queue_setQueue]
    refine .of_sublist ?_ _
    split
    · exact List.nil_sublist _
    · exact List.Sublist.refl _
  | takeWake =>
    intro other
    simp only [act, queuedIds, Inbox.takeWake, Inbox.queue_wakeRequested]
    exact .refl _ _
  | session operation => exact .of_eq rfl rfl
  | setStatus status => exact .of_eq rfl rfl
  | setStreamingMessage message => exact .of_eq rfl rfl
  | setPendingToolCalls ids => exact .of_eq rfl rfl
  | setErrorMessage message => exact .of_eq rfl rfl
  | setAbortController controller => exact .of_eq rfl rfl

theorem queuesFrom_perform (agent : AgentInstance) (actions : List AgentAction) :
    QueuesFrom uuid agent (agent.perform uuid actions) := by
  induction actions generalizing agent with
  | nil => exact .refl agent
  | cons action actions ih => exact (queuesFrom_act agent action).trans (ih _)

theorem QueuesFrom.fresh {agent agent' : AgentInstance} (huuid : Function.Injective uuid)
    (h : QueuesFrom uuid agent agent') (hfresh : agent.Fresh uuid) : agent'.Fresh uuid :=
  fun target => (h target).supplied huuid (hfresh target)

end AgentInstance

/-! ## The driver -/

/-- What surrounds an agent's driver. -/
structure Surroundings where
  uuid : Nat → String
  fromValue : Value → Except String Message
  nextStepPolicy : ClaimPolicy := .oneAtATime
  nextTurnPolicy : ClaimPolicy := .oneAtATime
  /-- What other threads do before a step. -/
  meanwhile : Nat → AgentInstance → List AgentAction
  /-- What a begun run does, and whether it fails. -/
  runWrapped : Begun → AgentInstance → List AgentAction × Option AgentLoopError

/-- How a call ended. -/
structure Ended where
  agent : AgentInstance
  outcome : Except AgentLoopError Unit

/-- One try to begin a run with a claimed batch, from a step on. -/
structure Attempt where
  step : Nat
  target : InboxTarget
  claimed : List InputEnvelope
  /-- The agent once the batch was claimed. -/
  reserved : AgentInstance
  begun : Option Begun
  ended : Ended

/-- What an attempt owes its batch. -/
def Attempt.Kept (attempt : Attempt) : Prop :=
  match attempt.begun with
  | some begun =>
    begun.entering = attempt.claimed.map InputEnvelope.message ∧
      begun.causes = attempt.claimed.map fun envelope => ⟨envelope.id, envelope.origin⟩
  | none =>
    (∃ error, attempt.ended.outcome = .error error) ∧
      attempt.claimed <+: attempt.ended.agent.inbox.queue attempt.target

/-- `envelope_messages` and `envelope_causes` of a claimed batch. -/
def begunWith (claimed : List InputEnvelope) (skip : Bool) : Begun where
  entering := claimed.map InputEnvelope.message
  causes := claimed.map fun envelope => ⟨envelope.id, envelope.origin⟩
  skipInitialSteeringPoll := skip

namespace Surroundings

variable (env : Surroundings)

/-- The agent as the step with this number finds it. -/
def before (step : Nat) (agent : AgentInstance) : AgentInstance := agent.perform env.uuid (env.meanwhile step agent)

def derive (agent : AgentInstance) : Except SessionError (List Message) :=
  agent.sessions.deriveMessages env.fromValue agent.session

/-- `finish_run`. -/
def finishRun (agent : AgentInstance) : AgentInstance :=
  { agent with abortController := none, status := .idle, streamingMessage := none, pendingToolCalls := [] }

/-- `try_begin_run`: the transition is atomic, the transcript is read after
it, and a transcript that does not derive rolls the entry back. -/
def tryBeginRun (step : Nat) (agent : AgentInstance) : Ended :=
  let agent := env.before step agent
  if agent.status ≠ .idle then
    ⟨agent, .error .active⟩
  else
    let running :=
      { agent with abortController := some false, status := .running, streamingMessage := none, errorMessage := none }
    let running := env.before (step + 1) running
    match env.derive running with
    | .ok _ => ⟨running, .ok ()⟩
    | .error error =>
      let failed := env.before (step + 2) running
      ⟨{ failed with
          abortController := none, status := .idle
          streamingMessage := agent.streamingMessage, errorMessage := agent.errorMessage }, .error (.session error)⟩

/-- `run_wrapped` of a prepared run, which ends with `finish_run`. -/
def complete (begun : Begun) (agent : AgentInstance) : Ended :=
  let (actions, failure) := env.runWrapped begun agent
  ⟨finishRun (agent.perform env.uuid actions), match failure with
    | none => .ok ()
    | some error => .error error⟩

/-- `continue_run` after a last assistant message, once the run has begun. -/
def continueClaiming (agent : AgentInstance) : List Attempt × Ended :=
  let agent := env.before 6 agent
  let (steering, inbox) := agent.inbox.claim .steering env.nextStepPolicy
  let agent := { agent with inbox }
  if steering ≠ [] then
    let ended := env.complete (begunWith steering true) agent
    ([⟨6, .steering, steering, agent, some (begunWith steering true), ended⟩], ended)
  else
    let agent := env.before 7 agent
    let (followUp, inbox) := agent.inbox.claim .followUp env.nextTurnPolicy
    let agent := { agent with inbox }
    if followUp ≠ [] then
      let ended := env.complete (begunWith followUp false) agent
      ([⟨7, .followUp, followUp, agent, some (begunWith followUp false), ended⟩], ended)
    else
      -- another claimant drained the queue that was observed
      ([], ⟨finishRun (env.before 8 agent), .error .cannotContinueFromAssistant⟩)

/-- `continue_run`. -/
def continueRun (agent : AgentInstance) : List Attempt × Ended :=
  let agent := env.before 0 agent
  if agent.status ≠ .idle then
    ([], ⟨agent, .error .continueActive⟩)
  else
    let agent := env.before 1 agent
    match env.derive agent with
    | .error error => ([], ⟨agent, .error (.session error)⟩)
    | .ok messages =>
      match messages.getLast? with
      | none => ([], ⟨agent, .error .noMessagesToContinue⟩)
      | some last =>
        let agent := env.before 2 agent
        if last.assistant?.isSome && !agent.inbox.hasPending then
          ([], ⟨agent, .error .cannotContinueFromAssistant⟩)
        else
          let entered := env.tryBeginRun 3 agent
          match entered.outcome with
          | .error .active => ([], ⟨entered.agent, .error .continueActive⟩)
          | .error error => ([], ⟨entered.agent, .error error⟩)
          | .ok _ =>
            if last.assistant?.isNone then
              ([], env.complete (begunWith [] false) entered.agent)
            else
              env.continueClaiming entered.agent

/-- One round of `run_until_idle` after its claim. -/
def attempt (step : Nat) (claimed : List InputEnvelope) (reserved : AgentInstance) : Attempt :=
  let entered := env.tryBeginRun step reserved
  match entered.outcome with
  | .error _ => ⟨step, .followUp, claimed, reserved, none, entered⟩
  | .ok _ =>
    ⟨step, .followUp, claimed, reserved, some (begunWith claimed false),
      env.complete (begunWith claimed false) entered.agent⟩

/-- `run_until_idle`: its attempts in the first `fuel` rounds, and how it ends
when it has.  It claims before the run begins. -/
def runUntilIdle : Nat → Nat → AgentInstance → List Attempt × Option Ended
  | 0, _, _ => ([], none)
  | fuel + 1, step, agent =>
    let agent := env.before step agent
    if agent.inbox.queue .followUp = [] then
      ([], some ⟨{ env.before (step + 1) agent with inbox := (env.before (step + 1) agent).inbox.takeWake.2 }, .ok ()⟩)
    else
      let agent := env.before (step + 1) agent
      let (claimed, inbox) := agent.inbox.claim .followUp env.nextTurnPolicy
      let agent := { agent with inbox }
      if claimed = [] then
        runUntilIdle fuel (step + 2) agent
      else
        let attempt := env.attempt (step + 2) claimed agent
        match attempt.ended.outcome with
        | .error _ => ([attempt], some attempt.ended)
        | .ok _ =>
          let (attempts, ended) := runUntilIdle fuel (step + 5) attempt.ended.agent
          (attempt :: attempts, ended)

/-- The agent as `try_begin_run` sets it running. -/
def started (agent : AgentInstance) : AgentInstance :=
  { agent with abortController := some false, status := .running, streamingMessage := none, errorMessage := none }

/-- The agent is idle when the run is to begin, and its transcript derives. -/
def Enters (step : Nat) (reserved : AgentInstance) : Prop :=
  (env.before step reserved).status = .idle ∧
    ∃ messages, env.derive (env.before (step + 1) (started (env.before step reserved))) = .ok messages

variable {env}

theorem queuesFrom_before (step : Nat) (agent : AgentInstance) :
    AgentInstance.QueuesFrom env.uuid agent (env.before step agent) :=
  AgentInstance.queuesFrom_perform _ _

theorem queuesFrom_tryBeginRun (step : Nat) (agent : AgentInstance) :
    AgentInstance.QueuesFrom env.uuid agent (env.tryBeginRun step agent).agent := by
  have hbefore := @queuesFrom_before env step agent
  have hstarted : AgentInstance.QueuesFrom env.uuid (env.before step agent) (started (env.before step agent)) :=
    .of_eq rfl rfl
  have hrunning := (hbefore.trans hstarted).trans (queuesFrom_before (step + 1) _)
  unfold tryBeginRun
  dsimp only
  split
  · exact hbefore
  · split
    · exact hrunning
    · exact (hrunning.trans (queuesFrom_before (step + 2) _)).trans (.of_eq rfl rfl)

theorem queuesFrom_complete (begun : Begun) (agent : AgentInstance) :
    AgentInstance.QueuesFrom env.uuid agent (env.complete begun agent).agent :=
  (AgentInstance.queuesFrom_perform agent _).trans (.of_eq rfl rfl)

/-- `try_begin_run` succeeds exactly when the run can begin. -/
theorem tryBeginRun_ok_iff (step : Nat) (agent : AgentInstance) :
    (env.tryBeginRun step agent).outcome = .ok () ↔ env.Enters step agent := by
  unfold tryBeginRun Enters
  dsimp only
  split
  · next hactive => exact iff_of_false (fun hok => nomatch hok) (fun henters => hactive henters.1)
  · next hidle =>
    rw [not_not] at hidle
    cases hderive : env.derive (env.before (step + 1) (started (env.before step agent))) with
    | ok messages =>
      have hderive' := hderive
      unfold started at hderive'
      simp [hderive', hidle]
    | error error =>
      have hderive' := hderive
      unfold started at hderive'
      simp [hderive']

/-- What claiming a batch leaves. -/
structure Claims (env : Surroundings) (claimed : List InputEnvelope) (target : InboxTarget)
    (reserved : AgentInstance) : Prop where
  fresh : reserved.Fresh env.uuid
  drawn : ∀ envelope ∈ claimed, envelope.id ∈ Supply.draws env.uuid 0 reserved.drawn
  gone : ∀ envelope ∈ claimed, envelope.id ∉ reserved.queuedIds target

theorem claims_claim {agent : AgentInstance} (huuid : Function.Injective env.uuid) (hfresh : agent.Fresh env.uuid)
    (target : InboxTarget) (policy : ClaimPolicy) :
    env.Claims (agent.inbox.claim target policy).1 target
      { agent with inbox := (agent.inbox.claim target policy).2 } := by
  obtain ⟨hsplit, -⟩ := agent.inbox.claim_queue target policy
  have hclaim := @AgentInstance.queuesFrom_act env.uuid agent (.claim target policy)
  obtain ⟨hnodup, hdrawn⟩ := hfresh target
  rw [AgentInstance.queuedIds, ← hsplit, List.map_append] at hnodup hdrawn
  exact {
    fresh := hclaim.fresh huuid hfresh
    drawn := fun envelope henvelope => hdrawn _ (List.mem_append_left _ (List.mem_map_of_mem henvelope))
    gone := fun envelope henvelope hqueued =>
      (List.nodup_append.mp hnodup).2.2 _ (List.mem_map_of_mem henvelope) _ hqueued rfl }

/-- A round of `run_until_idle` keeps its batch exactly when its run can
begin: nothing is put back. -/
theorem attempt_kept_iff (huuid : Function.Injective env.uuid) (step : Nat) {claimed : List InputEnvelope}
    {reserved : AgentInstance} (h : env.Claims claimed .followUp reserved) (hne : claimed ≠ []) :
    (env.attempt step claimed reserved).Kept ↔ env.Enters step reserved := by
  rw [← tryBeginRun_ok_iff]
  cases houtcome : (env.tryBeginRun step reserved).outcome with
  | ok u =>
    refine iff_of_true ?_ rfl
    simp only [Attempt.Kept, attempt, houtcome]
    exact ⟨rfl, rfl⟩
  | error error =>
    refine iff_of_false ?_ (fun hok => nomatch hok)
    simp only [Attempt.Kept, attempt, houtcome]
    rintro ⟨-, hback⟩
    obtain ⟨envelope, rest, rfl⟩ := List.exists_cons_of_ne_nil hne
    have hmem : envelope ∈ envelope :: rest := List.mem_cons_self
    have hgone := (queuesFrom_tryBeginRun step reserved .followUp).not_mem huuid (h.drawn envelope hmem)
      (h.gone envelope hmem)
    exact hgone (List.mem_map_of_mem (hback.subset hmem))

theorem queuesFrom_attempt (step : Nat) (claimed : List InputEnvelope) (reserved : AgentInstance) :
    AgentInstance.QueuesFrom env.uuid reserved (env.attempt step claimed reserved).ended.agent := by
  have hentered := @queuesFrom_tryBeginRun env step reserved
  unfold attempt
  dsimp only
  split
  · exact hentered
  · exact hentered.trans (queuesFrom_complete _ _)

/-! ## The attempts of a call -/

theorem kept_continueClaiming (agent : AgentInstance) :
    ∀ attempt ∈ (env.continueClaiming agent).1, attempt.Kept := by
  intro attempt hattempt
  unfold continueClaiming at hattempt
  dsimp only at hattempt
  split at hattempt
  · rw [List.mem_singleton.mp hattempt]
    exact ⟨rfl, rfl⟩
  · split at hattempt
    · rw [List.mem_singleton.mp hattempt]
      exact ⟨rfl, rfl⟩
    · cases hattempt

/-- `continue_run` claims for a run that has begun. -/
theorem kept_continueRun (agent : AgentInstance) : ∀ attempt ∈ (env.continueRun agent).1, attempt.Kept := by
  intro attempt hattempt
  unfold continueRun at hattempt
  dsimp only at hattempt
  split at hattempt
  · cases hattempt
  · split at hattempt
    · cases hattempt
    · split at hattempt
      · cases hattempt
      · split at hattempt
        · cases hattempt
        · split at hattempt
          · cases hattempt
          · cases hattempt
          · split at hattempt
            · cases hattempt
            · exact kept_continueClaiming _ attempt hattempt

/-- A refused `continue_run` does nothing. -/
theorem continueRun_of_running {agent : AgentInstance} (h : (env.before 0 agent).status ≠ .idle) :
    env.continueRun agent = ([], ⟨env.before 0 agent, .error .continueActive⟩) := by
  rw [continueRun, if_pos h]

theorem kept_iff_runUntilIdle (huuid : Function.Injective env.uuid) (fuel step : Nat) {agent : AgentInstance}
    (hfresh : agent.Fresh env.uuid) :
    ∀ attempt ∈ (env.runUntilIdle fuel step agent).1, attempt.Kept ↔ env.Enters attempt.step attempt.reserved := by
  induction fuel generalizing step agent with
  | zero => simp [runUntilIdle]
  | succ fuel ih =>
    have hlooked := (@queuesFrom_before env step agent).fresh huuid hfresh
    have hbefore := (@queuesFrom_before env (step + 1) (env.before step agent)).fresh huuid hlooked
    have hclaims := claims_claim huuid hbefore .followUp env.nextTurnPolicy
    intro attempt hattempt
    unfold runUntilIdle at hattempt
    dsimp only at hattempt
    split at hattempt
    · cases hattempt
    · split at hattempt
      · exact ih (step + 2) hclaims.fresh attempt hattempt
      · next hne =>
        have hkept := attempt_kept_iff huuid (step + 2) hclaims hne
        have hstep : ∀ claimed reserved, (env.attempt (step + 2) claimed reserved).step = step + 2 ∧
            (env.attempt (step + 2) claimed reserved).reserved = reserved := by
          intro claimed reserved
          unfold Surroundings.attempt
          dsimp only
          split <;> exact ⟨rfl, rfl⟩
        have hround := hstep (Inbox.claim (env.before (step + 1) (env.before step agent)).inbox .followUp
          env.nextTurnPolicy).1
        split at hattempt
        · rw [List.mem_singleton.mp hattempt, (hround _).1, (hround _).2]
          exact hkept
        · rcases List.mem_cons.mp hattempt with rfl | hlater
          · rw [(hround _).1, (hround _).2]
            exact hkept
          · exact ih (step + 5) ((queuesFrom_attempt _ _ _).fresh huuid hclaims.fresh) attempt hlater

/-! ## The agents a call can find -/

theorem queuesFrom_claim (agent : AgentInstance) (target : InboxTarget) (policy : ClaimPolicy) :
    AgentInstance.QueuesFrom env.uuid agent { agent with inbox := (agent.inbox.claim target policy).2 } :=
  AgentInstance.queuesFrom_act agent (.claim target policy)

theorem queuesFrom_continueClaiming (agent : AgentInstance) :
    AgentInstance.QueuesFrom env.uuid agent (env.continueClaiming agent).2.agent := by
  have hsteering := (@queuesFrom_before env 6 agent).trans (queuesFrom_claim _ .steering env.nextStepPolicy)
  unfold continueClaiming
  dsimp only
  split
  · exact hsteering.trans (queuesFrom_complete _ _)
  · have hfollowUp := (hsteering.trans (queuesFrom_before 7 _)).trans (queuesFrom_claim _ .followUp env.nextTurnPolicy)
    split
    · exact hfollowUp.trans (queuesFrom_complete _ _)
    · exact (hfollowUp.trans (queuesFrom_before 8 _)).trans (.of_eq rfl rfl)

theorem queuesFrom_continueRun (agent : AgentInstance) :
    AgentInstance.QueuesFrom env.uuid agent (env.continueRun agent).2.agent := by
  have hchecked := @queuesFrom_before env 0 agent
  have hread := hchecked.trans (queuesFrom_before 1 _)
  have hlooked := hread.trans (queuesFrom_before 2 _)
  have hentered := hlooked.trans (queuesFrom_tryBeginRun 3 _)
  unfold continueRun
  dsimp only
  split
  · exact hchecked
  · split
    · exact hread
    · split
      · exact hread
      · split
        · exact hlooked
        · split
          · exact hentered
          · exact hentered
          · split
            · exact hentered.trans (queuesFrom_complete _ _)
            · exact hentered.trans (queuesFrom_continueClaiming _)

theorem queuesFrom_runUntilIdle (fuel step : Nat) {agent : AgentInstance} {ended : Ended}
    (h : (env.runUntilIdle fuel step agent).2 = some ended) :
    AgentInstance.QueuesFrom env.uuid agent ended.agent := by
  induction fuel generalizing step agent with
  | zero => cases h
  | succ fuel ih =>
    have hbefore := (@queuesFrom_before env step agent).trans (queuesFrom_before (step + 1) _)
    have hclaimed := hbefore.trans (queuesFrom_claim _ .followUp env.nextTurnPolicy)
    unfold runUntilIdle at h
    dsimp only at h
    split at h
    · cases h
      exact hbefore.trans (AgentInstance.queuesFrom_act _ .takeWake)
    · split at h
      · exact hclaimed.trans (ih (step + 2) h)
      · have hround := hclaimed.trans (queuesFrom_attempt (step + 2)
          ((env.before (step + 1) (env.before step agent)).inbox.claim .followUp env.nextTurnPolicy).1 _)
        split at h
        · cases h
          exact hround
        · exact hround.trans (ih (step + 5) h)

/-- The agents a call can find. -/
inductive Reached (env : Surroundings) : AgentInstance → Prop
  | created (agent : AgentInstance) : (∀ target, agent.inbox.queue target = []) → Reached env agent
  | acted {agent : AgentInstance} (action : AgentAction) : Reached env agent → Reached env (agent.act env.uuid action)
  | continued {agent : AgentInstance} : Reached env agent → Reached env (env.continueRun agent).2.agent
  | ran {agent : AgentInstance} {fuel step : Nat} {ended : Ended} :
    Reached env agent → (env.runUntilIdle fuel step agent).2 = some ended → Reached env ended.agent
  | amid {agent agent' : AgentInstance} :
    Reached env agent → agent'.inbox = agent.inbox → agent'.drawn = agent.drawn → Reached env agent'

theorem Reached.fresh {agent : AgentInstance} (huuid : Function.Injective env.uuid) (h : env.Reached agent) :
    agent.Fresh env.uuid := by
  induction h with
  | created agent hempty => exact AgentInstance.fresh_of_empty hempty
  | acted action _ ih => exact (AgentInstance.queuesFrom_act _ action).fresh huuid ih
  | continued _ ih => exact (queuesFrom_continueRun _).fresh huuid ih
  | ran _ hended ih => exact (queuesFrom_runUntilIdle _ _ hended).fresh huuid ih
  | amid _ hinbox hdrawn ih => exact (AgentInstance.QueuesFrom.of_eq hinbox hdrawn).fresh huuid ih

end Surroundings

end MinionAgent.Rust
