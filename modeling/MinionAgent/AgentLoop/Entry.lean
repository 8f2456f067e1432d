import MinionAgent.Agent.Instance

/-!
# MinionAgent.AgentLoop.Entry

Entering a run (`agent_loop/driver.py`): `continue_`, `run_until_idle` and
the entry part of `_run_wrapped`.

A call claims a batch, and then either a run begins with it or the call
fails; `Attempt` records one such try.  What the run itself does, from
`AGENT_START` on, is part of the surroundings, as are the status observers.

* `attempt_kept_iff` — when an attempt loses nothing it claimed;
* `kept_iff_continue`, `kept_iff_runUntilIdle` — the attempts of a call;
* `Reached` — the agents a call can find, in the middle of another call too.
-/

namespace MinionAgent

/-- The provenance of one entering envelope. -/
structure Cause where
  id : String
  origin : Py.Value
deriving DecidableEq

def InputEnvelope.cause (envelope : InputEnvelope) : Cause := ⟨envelope.id, envelope.origin⟩

/-- What a run begins with. -/
structure Begun where
  entering : List Message
  causes : List Cause
  skipInitialSteeringPoll : Bool
deriving DecidableEq

/-- A run that begins with a reserved batch. -/
def Reservation.begun (reservation : Reservation) (skip : Bool) : Begun where
  entering := reservation.envelopes.map InputEnvelope.message
  causes := reservation.envelopes.map InputEnvelope.cause
  skipInitialSteeringPoll := skip

/-- What surrounds an agent's driver. -/
structure Surroundings where
  uuid : Nat → String
  nextTurnPolicy : ClaimPolicy := .oneAtATime
  nextStepPolicy : ClaimPolicy := .oneAtATime
  /-- The status observers, called on the agent with its new status. -/
  onStatus : AgentInstance → Response Unit
  /-- What a begun run does. -/
  executeRun : Begun → AgentInstance → Response Unit

/-- How a call ended: the agent it left, and whether it raised. -/
structure Ended where
  agent : AgentInstance
  outcome : Except Failure Unit

/-- How one `_run_wrapped` went. -/
structure Entered where
  begun : Option Begun
  ended : Ended

namespace Surroundings

variable (env : Surroundings)

/-- `set_status`: a no-op when the status is unchanged. -/
def setStatus (status : AgentStatus) (agent : AgentInstance) : Ended :=
  if agent.status = status then
    ⟨agent, .ok ()⟩
  else
    let changed := { agent with status }
    let response := env.onStatus changed
    ⟨changed.perform env.uuid response.actions, response.outcome⟩

/-- The `finally` of `_run_wrapped`; a failing observer replaces the outcome. -/
def finishRun (outcome : Except Failure Unit) (agent : AgentInstance) : Ended :=
  let settled := { agent with controller := none, streamingMessage := none, pendingToolCalls := [] }
  let ended := env.setStatus .idle settled
  match ended.outcome with
  | .ok _ => ⟨ended.agent, outcome⟩
  | .error failure => ⟨ended.agent, .error failure⟩

/-- A failed RUNNING notification: no run began, and a reserved batch comes
back. -/
def undoEntry (reservation : Option Reservation) (agent : AgentInstance) : AgentInstance :=
  let idle := { agent with controller := none, status := .idle }
  match reservation with
  | none => idle
  | some reservation =>
    match reservation.rollback idle.inbox with
    | .ok (_, inbox) => { idle with inbox }
    | .error _ => idle

/-- The RUNNING notification of an entry. -/
def notifyRunning (agent : AgentInstance) : Ended := env.setStatus .running { agent with controller := some false }

/-- `_run_wrapped`. -/
def runWrapped (begun : Begun) (reservation : Option Reservation) (agent : AgentInstance) : Entered :=
  if agent.status ≠ .idle then
    ⟨none, agent, .error (.active "Agent is already processing.")⟩
  else
    let notified := env.notifyRunning agent
    match notified.outcome with
    | .error failure =>
      if failure.isException then
        ⟨none, undoEntry reservation notified.agent, .error failure⟩
      else
        ⟨none, notified⟩
    | .ok _ =>
      let entered := { notified.agent with streamingMessage := none, errorMessage := none }
      -- `_execute_run` reads the transcript before the run's first event
      match entered.messages with
      | none => ⟨none, env.finishRun (.error .transcript) entered⟩
      | some _ =>
        let response := env.executeRun begun entered
        ⟨some begun, env.finishRun response.outcome (entered.perform env.uuid response.actions)⟩

/-! ## Attempts -/

end Surroundings

/-- One try to begin a run with a claimed batch. -/
structure Attempt where
  target : InboxTarget
  claimed : List InputEnvelope
  /-- The agent once the batch was claimed. -/
  reserved : AgentInstance
  entered : Entered

/-- What an attempt owes its batch: a run begins with exactly it, or the call
fails, none begins and it is queued again, first. -/
def Attempt.Kept (attempt : Attempt) : Prop :=
  match attempt.entered.begun with
  | some begun =>
    begun.entering = attempt.claimed.map InputEnvelope.message ∧ begun.causes = attempt.claimed.map InputEnvelope.cause
  | none =>
    (∃ failure, attempt.entered.ended.outcome = .error failure) ∧
      attempt.claimed <+: attempt.entered.ended.agent.inbox.queue attempt.target

namespace Surroundings

variable (env : Surroundings)

/-- Try to begin a run with a reserved batch. -/
def attempt (reservation : Reservation) (skip : Bool) (reserved : AgentInstance) : Attempt :=
  { target := reservation.target, claimed := reservation.envelopes, reserved,
    entered := env.runWrapped (reservation.begun skip) (some reservation) reserved }

/-- `continue_`: the attempts it makes, and how it ends. -/
def continue_ (agent : AgentInstance) : List Attempt × Ended :=
  if agent.status ≠ .idle then
    ([], ⟨agent, .error (.active "Agent is already processing. Wait for completion before continuing.")⟩)
  else
    match agent.messages with
    | none => ([], ⟨agent, .error .transcript⟩)
    | some messages =>
      match messages.getLast? with
      | none => ([], ⟨agent, .error (.active "No messages to continue from")⟩)
      | some (.assistant _) =>
        let (steering, inbox) := agent.inbox.reserve .nextStep env.nextStepPolicy
        let agent := { agent with inbox }
        if steering.envelopes ≠ [] then
          let attempt := env.attempt steering true agent
          ([attempt], attempt.entered.ended)
        else
          let (followup, inbox) := agent.inbox.reserve .nextTurn env.nextTurnPolicy
          let agent := { agent with inbox }
          if followup.envelopes ≠ [] then
            let attempt := env.attempt followup false agent
            ([attempt], attempt.entered.ended)
          else
            ([], ⟨agent, .error (.active "Cannot continue from message role: assistant")⟩)
      | some _ =>
        ([], (env.runWrapped { entering := [], causes := [], skipInitialSteeringPoll := false } none agent).ended)

/-- `run_until_idle`: its first `fuel` attempts, and how it ends when it has. -/
def runUntilIdle : Nat → AgentInstance → List Attempt × Option Ended
  | 0, _ => ([], none)
  | fuel + 1, agent =>
    if agent.inbox.pending .nextTurn = [] then
      ([], some ⟨{ agent with inbox := agent.inbox.takeWake.2 }, .ok ()⟩)
    else
      let (reservation, inbox) := agent.inbox.reserve .nextTurn env.nextTurnPolicy
      let attempt := env.attempt reservation false { agent with inbox }
      match attempt.entered.ended.outcome with
      | .error _ => ([attempt], some attempt.entered.ended)
      | .ok _ =>
        let (attempts, ended) := runUntilIdle fuel attempt.entered.ended.agent
        (attempt :: attempts, ended)

/-! ## What an attempt does to the queues -/

variable {env}

theorem queuesFrom_setStatus (status : AgentStatus) (agent : AgentInstance) :
    AgentInstance.QueuesFrom env.uuid agent (env.setStatus status agent).agent := by
  unfold setStatus
  split
  · exact .refl agent
  · have hstatus : AgentInstance.QueuesFrom env.uuid agent { agent with status } := .of_eq rfl rfl
    exact hstatus.trans (AgentInstance.queuesFrom_perform _ _)

theorem queuesFrom_finishRun (outcome : Except Failure Unit) (agent : AgentInstance) :
    AgentInstance.QueuesFrom env.uuid agent (env.finishRun outcome agent).agent := by
  have hsettled : AgentInstance.QueuesFrom env.uuid agent
      { agent with controller := none, streamingMessage := none, pendingToolCalls := [] } := .of_eq rfl rfl
  unfold finishRun
  dsimp only
  split <;> exact hsettled.trans (queuesFrom_setStatus _ _)

theorem queuesFrom_notifyRunning (agent : AgentInstance) :
    AgentInstance.QueuesFrom env.uuid agent (env.notifyRunning agent).agent := by
  have hstarted : AgentInstance.QueuesFrom env.uuid agent { agent with controller := some false } := .of_eq rfl rfl
  exact hstarted.trans (queuesFrom_setStatus _ _)

theorem undoEntry_inbox {reservation : Reservation} (hopen : reservation.settled = false) (agent : AgentInstance) :
    (undoEntry (some reservation) agent).inbox = (agent.putBack reservation.target reservation.envelopes).inbox ∧
      (undoEntry (some reservation) agent).drawn = agent.drawn := by
  simp [undoEntry, Reservation.rollback, hopen, AgentInstance.putBack]

/-- Whatever becomes of an entry, the queues change as if its batch had stayed
queued until then. -/
theorem queuesFrom_runWrapped {reservation : Reservation} (hopen : reservation.settled = false) (begun : Begun)
    (agent : AgentInstance) :
    AgentInstance.QueuesFrom env.uuid (agent.putBack reservation.target reservation.envelopes)
      (env.runWrapped begun (some reservation) agent).ended.agent := by
  have hheld : AgentInstance.QueuesFrom env.uuid (agent.putBack reservation.target reservation.envelopes) agent :=
    AgentInstance.queuesFrom_of_putBack agent _ _
  have hnotified := @queuesFrom_notifyRunning env agent
  unfold runWrapped
  split
  · exact hheld
  · dsimp only
    split
    · split
      · obtain ⟨hinbox, hdrawn⟩ := undoEntry_inbox hopen (env.notifyRunning agent).agent
        exact (hnotified.putBack _ _).trans (.of_eq hinbox hdrawn)
      · exact hheld.trans hnotified
    · have hentered : AgentInstance.QueuesFrom env.uuid (env.notifyRunning agent).agent
          { (env.notifyRunning agent).agent with streamingMessage := none, errorMessage := none } := .of_eq rfl rfl
      have hbegun := (hheld.trans hnotified).trans hentered
      split
      · exact hbegun.trans (queuesFrom_finishRun _ _)
      · exact (hbegun.trans (AgentInstance.queuesFrom_perform _ _)).trans (queuesFrom_finishRun _ _)

theorem queuesFrom_runWrapped_none (begun : Begun) (agent : AgentInstance) :
    AgentInstance.QueuesFrom env.uuid agent (env.runWrapped begun none agent).ended.agent := by
  have hnotified := @queuesFrom_notifyRunning env agent
  unfold runWrapped
  split
  · exact .refl agent
  · dsimp only
    split
    · split
      · exact hnotified.trans (.of_eq rfl rfl)
      · exact hnotified
    · have hentered : AgentInstance.QueuesFrom env.uuid (env.notifyRunning agent).agent
          { (env.notifyRunning agent).agent with streamingMessage := none, errorMessage := none } := .of_eq rfl rfl
      have hbegun := hnotified.trans hentered
      split
      · exact hbegun.trans (queuesFrom_finishRun _ _)
      · exact (hbegun.trans (AgentInstance.queuesFrom_perform _ _)).trans (queuesFrom_finishRun _ _)

/-- A reservation takes its batch off the front of its queue. -/
theorem queuesFrom_reserved (agent : AgentInstance) (target : InboxTarget) (policy : ClaimPolicy) :
    AgentInstance.QueuesFrom env.uuid agent
      (AgentInstance.putBack { agent with inbox := (agent.inbox.reserve target policy).2 }
        (agent.inbox.reserve target policy).1.target (agent.inbox.reserve target policy).1.envelopes) := by
  refine .of_queue_eq (fun other => ?_) rfl
  simp only [AgentInstance.putBack, Inbox.reserve, Inbox.queue_setQueue, Inbox.queue_claim, Inbox.claim_fst]
  by_cases htarget : target = other
  · subst htarget
    rw [if_pos rfl, if_pos trivial, List.take_append_drop]
  · rw [if_neg htarget, if_neg htarget]

/-! ## When a run begins -/

theorem finishRun_error (failure : Failure) (agent : AgentInstance) :
    ∃ failure', (env.finishRun (.error failure) agent).outcome = .error failure' := by
  unfold finishRun
  dsimp only
  split
  · exact ⟨failure, rfl⟩
  · exact ⟨_, rfl⟩

/-- An entry that begins no run fails. -/
theorem runWrapped_fails {begun : Begun} {reservation : Option Reservation} {agent : AgentInstance}
    (h : (env.runWrapped begun reservation agent).begun = none) :
    ∃ failure, (env.runWrapped begun reservation agent).ended.outcome = .error failure := by
  revert h
  unfold runWrapped
  split
  · exact fun _ => ⟨_, rfl⟩
  · dsimp only
    split
    · next failure houtcome =>
      split
      · exact fun _ => ⟨failure, rfl⟩
      · exact fun _ => ⟨failure, houtcome⟩
    · split
      · exact fun _ => finishRun_error _ _
      · exact fun hbegun => nomatch hbegun

/-- A run can begin with what `reserved` has reserved, or the notification
fails in a way the entry undoes. -/
def Enters (reserved : AgentInstance) : Prop :=
  reserved.status = .idle ∧
    match (env.notifyRunning reserved).outcome with
    | .error failure => failure.isException = true
    | .ok _ => (env.notifyRunning reserved).agent.messages.isSome = true

theorem runWrapped_of_enters {reserved : AgentInstance} {reservation : Reservation} (begun : Begun)
    (hopen : reservation.settled = false) (h : env.Enters reserved) :
    (env.runWrapped begun (some reservation) reserved).begun = some begun ∨
      ((env.runWrapped begun (some reservation) reserved).begun = none ∧
        (env.runWrapped begun (some reservation) reserved).ended.agent.inbox.queue reservation.target =
          reservation.envelopes ++ (env.notifyRunning reserved).agent.inbox.queue reservation.target) := by
  obtain ⟨hidle, hnotice⟩ := h
  unfold runWrapped
  rw [if_neg (not_not.mpr hidle)]
  cases houtcome : (env.notifyRunning reserved).outcome with
  | error failure =>
    right
    simp only [houtcome] at hnotice
    simp [hnotice, houtcome, undoEntry, Reservation.rollback, hopen]
  | ok u =>
    left
    simp only [houtcome] at hnotice
    obtain ⟨messages, hmessages⟩ := Option.isSome_iff_exists.mp hnotice
    have hentered : AgentInstance.messages
        { (env.notifyRunning reserved).agent with streamingMessage := none, errorMessage := none } = some messages :=
      hmessages
    simp [houtcome, hentered]

/-- An entry that cannot enter begins no run and puts nothing back. -/
theorem runWrapped_of_not_enters {reserved : AgentInstance} (reservation : Option Reservation) (begun : Begun)
    (h : ¬ env.Enters reserved) :
    (env.runWrapped begun reservation reserved).begun = none ∧
      AgentInstance.QueuesFrom env.uuid reserved (env.runWrapped begun reservation reserved).ended.agent := by
  have hnotified := @queuesFrom_notifyRunning env reserved
  unfold runWrapped
  by_cases hidle : reserved.status = .idle
  · rw [if_neg (not_not.mpr hidle)]
    cases houtcome : (env.notifyRunning reserved).outcome with
    | error failure =>
      have hbase : failure.isException ≠ true := by
        intro hexception
        exact h ⟨hidle, by rw [houtcome]; exact hexception⟩
      simp only [houtcome, hbase]
      exact ⟨rfl, hnotified⟩
    | ok u =>
      have hmessages : (env.notifyRunning reserved).agent.messages = none := by
        rw [← Option.not_isSome_iff_eq_none]
        intro hderives
        exact h ⟨hidle, by rw [houtcome]; exact hderives⟩
      have hentered : AgentInstance.messages
          { (env.notifyRunning reserved).agent with streamingMessage := none, errorMessage := none } = none := hmessages
      simp only [houtcome, hentered]
      refine ⟨trivial, hnotified.trans ?_⟩
      have hreset : AgentInstance.QueuesFrom env.uuid (env.notifyRunning reserved).agent
          { (env.notifyRunning reserved).agent with streamingMessage := none, errorMessage := none } := .of_eq rfl rfl
      exact hreset.trans (queuesFrom_finishRun _ _)
  · rw [if_pos hidle]
    exact ⟨rfl, .refl reserved⟩

/-- What reserving a batch leaves: an open reservation whose ids were drawn
and are queued no more. -/
structure Reserves (env : Surroundings) (reservation : Reservation) (reserved : AgentInstance) : Prop where
  unsettled : reservation.settled = false
  fresh : reserved.Fresh env.uuid
  drawn : ∀ envelope ∈ reservation.envelopes, envelope.id ∈ Supply.draws env.uuid 0 reserved.drawn
  gone : ∀ envelope ∈ reservation.envelopes, envelope.id ∉ reserved.queuedIds reservation.target

theorem reserves_reserve {agent : AgentInstance} (huuid : Function.Injective env.uuid)
    (hfresh : agent.Fresh env.uuid) (target : InboxTarget) (policy : ClaimPolicy) :
    env.Reserves (agent.inbox.reserve target policy).1
      { agent with inbox := (agent.inbox.reserve target policy).2 } := by
  have hclaim := @AgentInstance.queuesFrom_act env.uuid agent (.claim target policy)
  have hsplit : (agent.inbox.claim target policy).1 ++ (agent.inbox.claim target policy).2.queue target =
      agent.inbox.queue target := by
    rw [Inbox.claim_fst, Inbox.queue_claim, if_pos rfl, List.take_append_drop]
  obtain ⟨hnodup, hdrawn⟩ := hfresh target
  rw [AgentInstance.queuedIds, ← hsplit, List.map_append] at hnodup hdrawn
  exact {
    unsettled := rfl
    fresh := hclaim.fresh huuid hfresh
    drawn := fun envelope henvelope => hdrawn _ (List.mem_append_left _ (List.mem_map_of_mem henvelope))
    gone := fun envelope henvelope hqueued =>
      (List.nodup_append.mp hnodup).2.2 _ (List.mem_map_of_mem henvelope) _ hqueued rfl }

/-- An attempt keeps its batch exactly when it can enter. -/
theorem attempt_kept_iff (huuid : Function.Injective env.uuid) {reservation : Reservation} {reserved : AgentInstance}
    (h : env.Reserves reservation reserved) (hne : reservation.envelopes ≠ []) (skip : Bool) :
    (env.attempt reservation skip reserved).Kept ↔ env.Enters reserved := by
  by_cases henters : env.Enters reserved
  · refine iff_of_true ?_ henters
    rcases runWrapped_of_enters (reservation.begun skip) h.unsettled henters with hbegun | ⟨hbegun, hqueue⟩
    · simp only [Attempt.Kept, attempt, hbegun]
      exact ⟨rfl, rfl⟩
    · have hfails := runWrapped_fails hbegun
      simp only [Attempt.Kept, attempt, hbegun, hqueue]
      exact ⟨hfails, List.prefix_append _ _⟩
  · obtain ⟨hbegun, hqueues⟩ := runWrapped_of_not_enters (some reservation) (reservation.begun skip) henters
    refine iff_of_false ?_ henters
    simp only [Attempt.Kept, attempt, hbegun]
    rintro ⟨-, hback⟩
    obtain ⟨envelope, hmem⟩ := List.exists_mem_of_ne_nil _ hne
    have hgone := (hqueues reservation.target).not_mem huuid (h.drawn envelope hmem) (h.gone envelope hmem)
    exact hgone (List.mem_map_of_mem (hback.subset hmem))

/-! ## The attempts of a call -/

theorem queuesFrom_attempt (agent : AgentInstance) (target : InboxTarget) (policy : ClaimPolicy) (skip : Bool) :
    AgentInstance.QueuesFrom env.uuid agent
      (env.attempt (agent.inbox.reserve target policy).1 skip
        { agent with inbox := (agent.inbox.reserve target policy).2 }).entered.ended.agent :=
  (queuesFrom_reserved agent target policy).trans (queuesFrom_runWrapped rfl _ _)

theorem kept_iff_continue (huuid : Function.Injective env.uuid) {agent : AgentInstance}
    (hfresh : agent.Fresh env.uuid) :
    ∀ attempt ∈ (env.continue_ agent).1, attempt.Kept ↔ env.Enters attempt.reserved := by
  have hsteering := reserves_reserve huuid hfresh .nextStep env.nextStepPolicy
  have hfollowup := reserves_reserve huuid hsteering.fresh .nextTurn env.nextTurnPolicy
  intro attempt hattempt
  unfold continue_ at hattempt
  split at hattempt
  · cases hattempt
  · split at hattempt
    · cases hattempt
    · split at hattempt
      · cases hattempt
      · dsimp only at hattempt
        split at hattempt
        · next hne =>
          rw [List.mem_singleton.mp hattempt]
          exact attempt_kept_iff huuid hsteering hne true
        · split at hattempt
          · next hne =>
            rw [List.mem_singleton.mp hattempt]
            exact attempt_kept_iff huuid hfollowup hne false
          · cases hattempt
      · cases hattempt

theorem kept_iff_runUntilIdle (huuid : Function.Injective env.uuid) (fuel : Nat) {agent : AgentInstance}
    (hfresh : agent.Fresh env.uuid) :
    ∀ attempt ∈ (env.runUntilIdle fuel agent).1, attempt.Kept ↔ env.Enters attempt.reserved := by
  induction fuel generalizing agent with
  | zero => simp [runUntilIdle]
  | succ fuel ih =>
    have hreserved := reserves_reserve huuid hfresh .nextTurn env.nextTurnPolicy
    intro attempt hattempt
    unfold runUntilIdle at hattempt
    split at hattempt
    · cases hattempt
    · next hpending =>
      have hkept := attempt_kept_iff huuid hreserved (Inbox.reserve_ne_nil env.nextTurnPolicy hpending) false
      dsimp only at hattempt
      split at hattempt
      · rw [List.mem_singleton.mp hattempt]
        exact hkept
      · rcases List.mem_cons.mp hattempt with rfl | hlater
        · exact hkept
        · exact ih ((queuesFrom_attempt agent _ _ false).fresh huuid hfresh) attempt hlater

/-- A call refused because the agent is working leaves it as it was. -/
theorem continue_of_running {agent : AgentInstance} (h : agent.status ≠ .idle) :
    env.continue_ agent =
      ([], ⟨agent, .error (.active "Agent is already processing. Wait for completion before continuing.")⟩) := by
  rw [continue_, if_pos h]

/-- The other call is refused only after its claim. -/
theorem runUntilIdle_of_running {agent : AgentInstance} (h : agent.status ≠ .idle) (fuel : Nat) :
    ∃ ended, (env.runUntilIdle (fuel + 1) agent).2 = some ended ∧
      ((∀ target, ended.agent.inbox.queue target = agent.inbox.queue target) ↔ agent.inbox.queue .nextTurn = []) := by
  unfold runUntilIdle
  by_cases hpending : agent.inbox.pending .nextTurn = []
  · rw [if_pos hpending]
    refine ⟨_, rfl, iff_of_true (fun target => ?_) hpending⟩
    simp [Inbox.takeWake]
  · rw [if_neg hpending]
    have hrefused : ∀ inbox begun reservation, env.runWrapped begun reservation { agent with inbox } =
        ⟨none, { agent with inbox }, .error (.active "Agent is already processing.")⟩ := by
      intro inbox begun reservation
      rw [runWrapped, if_pos h]
    simp only [attempt, hrefused]
    refine ⟨_, rfl, iff_of_false (fun hqueues => ?_) hpending⟩
    have hlength := congrArg List.length (hqueues .nextTurn)
    have hpos : 0 < (agent.inbox.queue .nextTurn).length := List.length_pos_iff.mpr hpending
    simp only [Inbox.reserve, Inbox.queue_claim, if_true, List.length_drop] at hlength
    cases hpolicy : env.nextTurnPolicy <;> simp only [hpolicy, ClaimPolicy.count] at hlength <;> omega

/-! ## The agents a call can find -/

theorem queuesFrom_continue (agent : AgentInstance) :
    AgentInstance.QueuesFrom env.uuid agent (env.continue_ agent).2.agent := by
  unfold continue_
  split
  · exact .refl agent
  · split
    · exact .refl agent
    · split
      · exact .refl agent
      · have hsteering := @AgentInstance.queuesFrom_act env.uuid agent (.claim .nextStep env.nextStepPolicy)
        dsimp only
        split
        · exact queuesFrom_attempt agent _ _ true
        · split
          · exact hsteering.trans (queuesFrom_attempt _ _ _ false)
          · exact hsteering.trans (AgentInstance.queuesFrom_act _ (.claim .nextTurn env.nextTurnPolicy))
      · exact queuesFrom_runWrapped_none _ agent

theorem queuesFrom_runUntilIdle (fuel : Nat) {agent : AgentInstance} {ended : Ended}
    (h : (env.runUntilIdle fuel agent).2 = some ended) : AgentInstance.QueuesFrom env.uuid agent ended.agent := by
  induction fuel generalizing agent with
  | zero => cases h
  | succ fuel ih =>
    have hattempt := @queuesFrom_attempt env agent .nextTurn env.nextTurnPolicy false
    unfold runUntilIdle at h
    split at h
    · cases h
      exact .of_queue_eq (fun target => by simp [Inbox.takeWake]) rfl
    · dsimp only at h
      split at h
      · cases h
        exact hattempt
      · exact hattempt.trans (ih h)

/-- The agents a call can find: made with an empty inbox and used since.  In
the middle of another call an agent differs from these only beside its
inbox. -/
inductive Reached (env : Surroundings) : AgentInstance → Prop
  | created (agent : AgentInstance) : (∀ target, agent.inbox.queue target = []) → Reached env agent
  | acted {agent : AgentInstance} (action : AgentAction) : Reached env agent → Reached env (agent.act env.uuid action)
  | continued {agent : AgentInstance} : Reached env agent → Reached env (env.continue_ agent).2.agent
  | ran {agent : AgentInstance} {fuel : Nat} {ended : Ended} :
    Reached env agent → (env.runUntilIdle fuel agent).2 = some ended → Reached env ended.agent
  | amid {agent agent' : AgentInstance} :
    Reached env agent → agent'.inbox = agent.inbox → agent'.drawn = agent.drawn → Reached env agent'

theorem Reached.fresh {agent : AgentInstance} (huuid : Function.Injective env.uuid) (h : env.Reached agent) :
    agent.Fresh env.uuid := by
  induction h with
  | created agent hempty => exact AgentInstance.fresh_of_empty hempty
  | acted action _ ih => exact (AgentInstance.queuesFrom_act _ action).fresh huuid ih
  | continued _ ih => exact (queuesFrom_continue _).fresh huuid ih
  | ran _ hended ih => exact (queuesFrom_runUntilIdle _ hended).fresh huuid ih
  | amid _ hinbox hdrawn ih => exact (AgentInstance.QueuesFrom.of_eq hinbox hdrawn).fresh huuid ih

end Surroundings

end MinionAgent
