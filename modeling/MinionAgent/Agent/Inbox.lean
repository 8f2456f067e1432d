import MinionAgent.Session.Log

/-!
# MinionAgent.Agent.Inbox

The inbox of one agent (`agent/envelope.py`, `agent/inbox.py`): two queues,
the operations on them, and the one-shot reservations of run entry.

A reservation holds the batch its own claim removed.  `commit` leaves it
removed, `rollback` puts it back ahead of what is queued, and either settles
the reservation for good.
-/

namespace MinionAgent

open Py

/-! ## Envelopes -/

/-- Which boundary an input waits for. -/
inductive InboxTarget
  | nextTurn
  | nextStep
deriving DecidableEq

/-- How many queued inputs a boundary takes. -/
inductive ClaimPolicy
  | all
  | oneAtATime
deriving DecidableEq

/-- One queued input and the provenance its sender attached. -/
structure InputEnvelope where
  id : String
  message : Message
  origin : Value
deriving DecidableEq

/-- What the inbox raises. -/
inductive InboxError
  | notJsonSafeOrigin (message : String)
  | alreadySettled
deriving DecidableEq

/-- `_check_json_safe` of the inbox. -/
def checkOriginJsonSafe (origin : Value) : Except InboxError Unit :=
  match jsonUnsafe? "keys" "origin" origin with
  | some message => .error (.notJsonSafeOrigin message)
  | none => .ok ()

/-! ## The two queues -/

/-- Queued input for one agent instance. -/
structure Inbox where
  nextTurn : List InputEnvelope := []
  nextStep : List InputEnvelope := []
  wake : Bool := false
deriving DecidableEq

namespace Inbox

/-- `_queues[target]`. -/
def queue (inbox : Inbox) : InboxTarget → List InputEnvelope
  | .nextTurn => inbox.nextTurn
  | .nextStep => inbox.nextStep

def setQueue (inbox : Inbox) (target : InboxTarget) (envelopes : List InputEnvelope) : Inbox :=
  match target with
  | .nextTurn => { inbox with nextTurn := envelopes }
  | .nextStep => { inbox with nextStep := envelopes }

@[simp] theorem queue_setQueue (inbox : Inbox) (target other : InboxTarget) (envelopes : List InputEnvelope) :
    (inbox.setQueue target envelopes).queue other = if target = other then envelopes else inbox.queue other := by
  cases target <;> cases other <;> rfl

@[simp] theorem queue_wake (inbox : Inbox) (wake : Bool) (target : InboxTarget) :
    ({ inbox with wake } : Inbox).queue target = inbox.queue target := by
  cases target <;> rfl

/-- Consume the wake signal. -/
def takeWake (inbox : Inbox) : Bool × Inbox := (inbox.wake, { inbox with wake := false })

/-- Queue `message` under the fresh `id`, validating its origin first. -/
def send (inbox : Inbox) (id : String) (message : Message) (target : InboxTarget) (wakeup : Bool) (origin : Value) :
    Except InboxError (InputEnvelope × Inbox) := do
  checkOriginJsonSafe origin
  let envelope : InputEnvelope := { id, message, origin }
  let queued := inbox.setQueue target (inbox.queue target ++ [envelope])
  return (envelope, { queued with wake := queued.wake || wakeup })

/-- Queue a prompt for the next turn and wake the driver. -/
def followup (inbox : Inbox) (id : String) (message : Message) (origin : Value) :
    Except InboxError (InputEnvelope × Inbox) :=
  inbox.send id message .nextTurn true origin

/-- Queue input for the next step boundary and wake the driver. -/
def steer (inbox : Inbox) (id : String) (message : Message) (origin : Value) :
    Except InboxError (InputEnvelope × Inbox) :=
  inbox.send id message .nextStep true origin

/-- Queue context for the next step boundary without waking. -/
def inject (inbox : Inbox) (id : String) (message : Message) (origin : Value) :
    Except InboxError (InputEnvelope × Inbox) :=
  inbox.send id message .nextStep false origin

/-- What is queued at `target`, unclaimed. -/
def pending (inbox : Inbox) (target : InboxTarget) : List InputEnvelope := inbox.queue target

/-- Remove and return queued input according to `policy`. -/
def claim (inbox : Inbox) (target : InboxTarget) (policy : ClaimPolicy) : List InputEnvelope × Inbox :=
  match inbox.queue target with
  | [] => ([], inbox)
  | envelope :: rest =>
    match policy with
    | .all => (envelope :: rest, inbox.setQueue target [])
    | .oneAtATime => ([envelope], inbox.setQueue target rest)

/-- Discard whatever is queued at `target`. -/
def clear (inbox : Inbox) (target : InboxTarget) : Inbox := inbox.setQueue target []

/-- Discard everything queued. -/
def clearAll (inbox : Inbox) : Inbox := (inbox.clear .nextTurn).clear .nextStep

end Inbox

/-- How many of `n` queued inputs a policy takes. -/
def ClaimPolicy.count (n : Nat) : ClaimPolicy → Nat
  | .all => n
  | .oneAtATime => 1

/-! ## Reservations -/

/-- A claimed batch whose run entry is not decided yet. -/
structure Reservation where
  target : InboxTarget
  envelopes : List InputEnvelope
  settled : Bool := false
deriving DecidableEq

/-- Claim a batch and bind a fresh reservation to it. -/
def Inbox.reserve (inbox : Inbox) (target : InboxTarget) (policy : ClaimPolicy) : Reservation × Inbox :=
  let (envelopes, claimed) := inbox.claim target policy
  ({ target, envelopes }, claimed)

/-- Leave the batch removed. -/
def Reservation.commit (reservation : Reservation) : Except InboxError Reservation :=
  if reservation.settled then .error .alreadySettled else .ok { reservation with settled := true }

/-- Put the batch back, ahead of what is queued now. -/
def Reservation.rollback (reservation : Reservation) (inbox : Inbox) : Except InboxError (Reservation × Inbox) :=
  if reservation.settled then
    .error .alreadySettled
  else
    .ok ({ reservation with settled := true },
      inbox.setQueue reservation.target (reservation.envelopes ++ inbox.queue reservation.target))

/-! ## What the operations do to the queues -/

namespace Inbox

/-- A claim takes the front of its queue. -/
theorem claim_fst (inbox : Inbox) (target : InboxTarget) (policy : ClaimPolicy) :
    (inbox.claim target policy).1 = (inbox.queue target).take (policy.count (inbox.queue target).length) := by
  unfold claim
  cases hqueue : inbox.queue target with
  | nil => simp
  | cons envelope rest => cases policy <;> simp [ClaimPolicy.count]

theorem queue_claim (inbox : Inbox) (target : InboxTarget) (policy : ClaimPolicy) (other : InboxTarget) :
    (inbox.claim target policy).2.queue other =
      if target = other then (inbox.queue other).drop (policy.count (inbox.queue other).length)
      else inbox.queue other := by
  unfold claim
  cases hqueue : inbox.queue target with
  | nil => grind
  | cons envelope rest => cases policy <;> grind [ClaimPolicy.count, queue_setQueue]

/-- A reservation of a queue that holds something holds something. -/
theorem reserve_ne_nil {inbox : Inbox} {target : InboxTarget} (policy : ClaimPolicy)
    (h : inbox.pending target ≠ []) : (inbox.reserve target policy).1.envelopes ≠ [] := by
  obtain ⟨envelope, rest, hqueue⟩ := List.exists_cons_of_ne_nil h
  rw [pending] at hqueue
  simp only [reserve, claim, hqueue]
  cases policy <;> simp

theorem queue_send {inbox inbox' : Inbox} {id : String} {message : Message} {target : InboxTarget} {wakeup : Bool}
    {origin : Value} {envelope : InputEnvelope}
    (h : inbox.send id message target wakeup origin = .ok (envelope, inbox')) :
    envelope = ⟨id, message, origin⟩ ∧
      ∀ other, inbox'.queue other = if target = other then inbox.queue other ++ [envelope] else inbox.queue other := by
  unfold send at h
  cases hcheck : checkOriginJsonSafe origin with
  | error e => simp [hcheck, bind, Except.bind] at h
  | ok u =>
    simp only [hcheck, bind, Except.bind, pure, Except.pure, Except.ok.injEq, Prod.mk.injEq] at h
    obtain ⟨rfl, rfl⟩ := h
    refine ⟨rfl, fun other => ?_⟩
    rw [queue_wake, queue_setQueue]
    grind

theorem queue_clear (inbox : Inbox) (target other : InboxTarget) :
    (inbox.clear target).queue other = if target = other then [] else inbox.queue other := by
  rw [clear, queue_setQueue]

theorem queue_clearAll (inbox : Inbox) (target : InboxTarget) : inbox.clearAll.queue target = [] := by
  cases target <;> simp [clearAll, queue_clear]

end Inbox

end MinionAgent
