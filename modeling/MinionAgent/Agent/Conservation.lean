import MinionAgent.Agent.Inbox
import MinionAgent.Library.Checkout

/-!
# MinionAgent.Agent.Conservation

Inbox conservation across run entry.

`Desk` is an inbox with the reservations made on it and a record of what was
sent, handed over and discarded.  Seen from one target it is a
`Checkout.Lane`, and each of its operations is one of the lane's
(`step_lane`); so every run conserves its envelopes (`Conserved`).
-/

namespace MinionAgent

/-! ## Operations on an inbox -/

/-- What producers, the driver and a status observer can do. -/
inductive InboxOperation
  | send (message : Message) (target : InboxTarget) (wakeup : Bool) (origin : Py.Value)
  | claim (target : InboxTarget) (policy : ClaimPolicy)
  | clear (target : InboxTarget)
  | clearAll
  | takeWake
  | reserve (target : InboxTarget) (policy : ClaimPolicy)
  | commit (reservation : Nat)
  | rollback (reservation : Nat)

def InboxOperation.followup (message : Message) (origin : Py.Value) : InboxOperation :=
  .send message .nextTurn true origin
def InboxOperation.steer (message : Message) (origin : Py.Value) : InboxOperation := .send message .nextStep true origin
def InboxOperation.inject (message : Message) (origin : Py.Value) : InboxOperation :=
  .send message .nextStep false origin

/-- An envelope handed over: returned by a claim, or committed. -/
structure Handover where
  target : InboxTarget
  committed : Bool
  delivery : Checkout.Delivery InputEnvelope

/-- What happened to the envelopes, in order. -/
structure Record where
  sent : List (InboxTarget × InputEnvelope) := []
  handedOver : List Handover := []
  discarded : List (InboxTarget × InputEnvelope) := []

/-- Record that `envelopes` were handed over while `held` was held. -/
def Record.handOver (record : Record) (target : InboxTarget) (committed : Bool) (held envelopes : List InputEnvelope) :
    Record :=
  { record with
    handedOver := record.handedOver ++ envelopes.map fun envelope => ⟨target, committed, ⟨envelope, held⟩⟩ }

/-- Record that `envelopes` were discarded. -/
def Record.discard (record : Record) (target : InboxTarget) (envelopes : List InputEnvelope) : Record :=
  { record with discarded := record.discarded ++ envelopes.map fun envelope => (target, envelope) }

/-- An inbox, the reservations made on it, and the record. -/
structure Desk where
  inbox : Inbox := {}
  reservations : List Reservation := []
  record : Record := {}

/-- What a reservation holds for a target while it is unsettled. -/
def Reservation.heldFor (target : InboxTarget) (reservation : Reservation) : List InputEnvelope :=
  if reservation.settled = false ∧ reservation.target = target then reservation.envelopes else []

namespace Desk

/-- What unsettled reservations hold for a target. -/
def heldAt (desk : Desk) (target : InboxTarget) : List InputEnvelope :=
  desk.reservations.flatMap (Reservation.heldFor target)

/-- One operation; a rejected one changes nothing.  The ids are drawn from
`uuid` in order. -/
def step (uuid : Nat → String) (desk : Desk) : InboxOperation → Desk
  | .send message target wakeup origin =>
    match desk.inbox.send (uuid desk.record.sent.length) message target wakeup origin with
    | .error _ => desk
    | .ok (envelope, inbox) =>
      { desk with inbox, record := { desk.record with sent := desk.record.sent ++ [(target, envelope)] } }
  | .claim target policy =>
    let (envelopes, inbox) := desk.inbox.claim target policy
    { desk with inbox, record := desk.record.handOver target false (desk.heldAt target) envelopes }
  | .clear target =>
    { desk with inbox := desk.inbox.clear target, record := desk.record.discard target (desk.inbox.queue target) }
  | .clearAll =>
    { desk with
      inbox := desk.inbox.clearAll
      record := (desk.record.discard .nextTurn (desk.inbox.queue .nextTurn)).discard .nextStep
        (desk.inbox.queue .nextStep) }
  | .takeWake => { desk with inbox := desk.inbox.takeWake.2 }
  | .reserve target policy =>
    let (reservation, inbox) := desk.inbox.reserve target policy
    { desk with inbox, reservations := desk.reservations ++ [reservation] }
  | .commit n =>
    match desk.reservations[n]? with
    | none => desk
    | some reservation =>
      match reservation.commit with
      | .error _ => desk
      | .ok settled =>
        { desk with
          reservations := desk.reservations.set n settled
          record := desk.record.handOver reservation.target true [] reservation.envelopes }
  | .rollback n =>
    match desk.reservations[n]? with
    | none => desk
    | some reservation =>
      match reservation.rollback desk.inbox with
      | .error _ => desk
      | .ok (settled, inbox) => { desk with inbox, reservations := desk.reservations.set n settled }

/-- A run, from an empty inbox on. -/
def run (uuid : Nat → String) (operations : List InboxOperation) : Desk := operations.foldl (step uuid) {}

/-- At most one reservation that holds something is unsettled. -/
def OneHeld (desk : Desk) : Prop :=
  ∀ (i j : Nat) (r r' : Reservation), desk.reservations[i]? = some r → desk.reservations[j]? = some r' →
    r.settled = false → r'.settled = false → r.envelopes ≠ [] → r'.envelopes ≠ [] → i = j

/-- At every moment of a run. -/
def OneHeldThroughout (uuid : Nat → String) (operations : List InboxOperation) : Prop :=
  ∀ earlier later, operations = earlier ++ later → (run uuid earlier).OneHeld

/-! ## Where envelopes are -/

def sentTo (desk : Desk) (target : InboxTarget) : List InputEnvelope :=
  (desk.record.sent.filter fun sent => sent.1 = target).map Prod.snd

def handedOverAt (desk : Desk) (target : InboxTarget) : List (Checkout.Delivery InputEnvelope) :=
  (desk.record.handedOver.filter fun handed => handed.target = target).map Handover.delivery

/-- Returned by a claim. -/
def claimedAt (desk : Desk) (target : InboxTarget) : List InputEnvelope :=
  (desk.record.handedOver.filter fun handed => handed.target = target && !handed.committed).map
    fun handed => handed.delivery.item

/-- Committed with their reservation. -/
def committedAt (desk : Desk) (target : InboxTarget) : List InputEnvelope :=
  (desk.record.handedOver.filter fun handed => handed.target = target && handed.committed).map
    fun handed => handed.delivery.item

def discardedAt (desk : Desk) (target : InboxTarget) : List InputEnvelope :=
  (desk.record.discarded.filter fun discarded => discarded.1 = target).map Prod.snd

/-- One target of a desk. -/
def lane (desk : Desk) (target : InboxTarget) : Checkout.Lane InputEnvelope where
  sent := desk.sentTo target
  queue := desk.inbox.queue target
  held := desk.heldAt target
  delivered := desk.handedOverAt target
  discarded := desk.discardedAt target

/-! ## Every operation is a lane's -/

/-- A lane stays as it is or makes one step. -/
def Advances (desk desk' : Desk) (target : InboxTarget) : Prop :=
  desk'.lane target = desk.lane target ∨ (desk.lane target).Step (desk'.lane target)

theorem advances_send (uuid : Nat → String) (desk : Desk) (message : Message) (target : InboxTarget) (wakeup : Bool)
    (origin : Py.Value) (other : InboxTarget) :
    Advances desk (desk.step uuid (.send message target wakeup origin)) other := by
  simp only [step]
  cases hsend : desk.inbox.send (uuid desk.record.sent.length) message target wakeup origin with
  | error e => exact .inl rfl
  | ok result =>
    obtain ⟨envelope, inbox⟩ := result
    obtain ⟨-, hqueue⟩ := Inbox.queue_send hsend
    by_cases htarget : target = other
    · right
      have hlane : lane { desk with inbox, record := { desk.record with
          sent := desk.record.sent ++ [(target, envelope)] } } other = (desk.lane other).send envelope := by
        simp [lane, Checkout.Lane.send, sentTo, heldAt, handedOverAt, discardedAt, hqueue, htarget]
      simp only [hlane]
      exact .send envelope _
    · left
      simp [lane, sentTo, heldAt, handedOverAt, discardedAt, hqueue, htarget]

theorem advances_claim (uuid : Nat → String) (desk : Desk) (target : InboxTarget) (policy : ClaimPolicy)
    (other : InboxTarget) : Advances desk (desk.step uuid (.claim target policy)) other := by
  by_cases htarget : target = other
  · right
    subst htarget
    have hlane : (desk.step uuid (.claim target policy)).lane target =
        (desk.lane target).claim (policy.count (desk.inbox.queue target).length) := by
      simp [step, lane, Checkout.Lane.claim, sentTo, heldAt, handedOverAt, discardedAt, Inbox.queue_claim,
        Inbox.claim_fst, Record.handOver, List.filter_map, Function.comp_def, -List.map_take]
    rw [hlane]
    exact .claim _ _
  · left
    simp [step, lane, sentTo, heldAt, handedOverAt, discardedAt, Inbox.queue_claim, htarget, Record.handOver,
      List.filter_map, Function.comp_def]

theorem advances_clear (uuid : Nat → String) (desk : Desk) (target other : InboxTarget) :
    Advances desk (desk.step uuid (.clear target)) other := by
  by_cases htarget : target = other
  · right
    subst htarget
    have hlane : (desk.step uuid (.clear target)).lane target = (desk.lane target).clear := by
      simp [step, lane, Checkout.Lane.clear, sentTo, heldAt, handedOverAt, discardedAt, Record.discard,
        Inbox.queue_clear, List.filter_map, Function.comp_def]
    rw [hlane]
    exact .clear _
  · left
    simp [step, lane, sentTo, heldAt, handedOverAt, discardedAt, Record.discard, Inbox.queue_clear, htarget,
      List.filter_map, Function.comp_def]

theorem advances_clearAll (uuid : Nat → String) (desk : Desk) (target : InboxTarget) :
    Advances desk (desk.step uuid .clearAll) target := by
  right
  have hlane : (desk.step uuid .clearAll).lane target = (desk.lane target).clear := by
    cases target <;>
      simp [step, lane, Checkout.Lane.clear, sentTo, heldAt, handedOverAt, discardedAt, Record.discard,
        Inbox.queue_clearAll, List.filter_map, Function.comp_def]
  rw [hlane]
  exact .clear _

/-- Beside a batch that is held, no other is. -/
theorem flatMap_heldFor_eq_nil {reservations : List Reservation} {target : InboxTarget}
    (h : ∀ r ∈ reservations, r.settled = false → r.envelopes = []) :
    reservations.flatMap (Reservation.heldFor target) = [] := by
  rw [List.flatMap_eq_nil_iff]
  intro r hr
  unfold Reservation.heldFor
  split
  · next hopen => exact h r hr hopen.1
  · rfl

/-- A held batch is all a desk holds, and settling it leaves nothing. -/
theorem heldAt_of_oneHeld {desk : Desk} (hone : desk.OneHeld) {n : Nat} {r : Reservation}
    (hr : desk.reservations[n]? = some r) (hopen : r.settled = false) (hholds : r.envelopes ≠ [])
    (target : InboxTarget) :
    desk.heldAt target = (if r.target = target then r.envelopes else []) ∧
      (desk.reservations.set n { r with settled := true }).flatMap (Reservation.heldFor target) = [] := by
  obtain ⟨hn, hget⟩ := List.getElem?_eq_some_iff.mp hr
  have hothers : ∀ (i : Nat) (r' : Reservation), desk.reservations[i]? = some r' → i ≠ n → r'.settled = false →
      r'.envelopes = [] := by
    intro i r' hr' hne hopen'
    by_contra hholds'
    exact hne (hone i n r' r hr' hr hopen' hopen hholds' hholds)
  have hsplit : desk.reservations = desk.reservations.take n ++ r :: desk.reservations.drop (n + 1) := by
    rw [← hget, List.getElem_cons_drop, List.take_append_drop]
  have hbefore : (desk.reservations.take n).flatMap (Reservation.heldFor target) = [] := by
    refine flatMap_heldFor_eq_nil fun r' hr' => ?_
    obtain ⟨i, hi⟩ := List.mem_iff_getElem?.mp hr'
    rw [List.getElem?_take] at hi
    split at hi
    · exact hothers i r' hi (by omega)
    · cases hi
  have hafter : (desk.reservations.drop (n + 1)).flatMap (Reservation.heldFor target) = [] := by
    refine flatMap_heldFor_eq_nil fun r' hr' => ?_
    obtain ⟨i, hi⟩ := List.mem_iff_getElem?.mp hr'
    rw [List.getElem?_drop] at hi
    exact hothers _ r' hi (by omega)
  constructor
  · rw [heldAt, hsplit, List.flatMap_append, List.flatMap_cons, hbefore, hafter]
    simp [Reservation.heldFor, hopen]
  · rw [List.set_eq_take_append_cons_drop, if_pos hn, List.flatMap_append, List.flatMap_cons, hbefore, hafter]
    simp [Reservation.heldFor]

/-- Settling a reservation that holds nothing changes nothing held. -/
theorem heldAt_settle_empty {desk : Desk} {n : Nat} {r : Reservation} (hr : desk.reservations[n]? = some r)
    (hempty : r.envelopes = []) (target : InboxTarget) :
    (desk.reservations.set n { r with settled := true }).flatMap (Reservation.heldFor target) =
      desk.heldAt target := by
  obtain ⟨hn, hget⟩ := List.getElem?_eq_some_iff.mp hr
  have hsplit : desk.reservations = desk.reservations.take n ++ r :: desk.reservations.drop (n + 1) := by
    rw [← hget, List.getElem_cons_drop, List.take_append_drop]
  rw [List.set_eq_take_append_cons_drop, if_pos hn, heldAt]
  conv_rhs => rw [hsplit]
  simp [Reservation.heldFor, hempty]

theorem advances_reserve (uuid : Nat → String) (desk : Desk) (target : InboxTarget) (policy : ClaimPolicy)
    (hone : (desk.step uuid (.reserve target policy)).OneHeld) (other : InboxTarget) :
    Advances desk (desk.step uuid (.reserve target policy)) other := by
  have hheld : (desk.step uuid (.reserve target policy)).heldAt other =
      desk.heldAt other ++ if target = other then (desk.inbox.claim target policy).1 else [] := by
    simp [step, heldAt, Inbox.reserve, Reservation.heldFor]
  have hqueue := desk.inbox.queue_claim target policy other
  by_cases htarget : target = other
  · subst htarget
    rw [if_pos rfl] at hheld hqueue
    by_cases hnothing : (desk.inbox.claim target policy).1 = []
    · left
      have hsame : (desk.inbox.claim target policy).2.queue target = desk.inbox.queue target := by
        rw [Inbox.claim_fst] at hnothing
        rw [hqueue]
        cases policy <;> cases hempty : desk.inbox.queue target <;> simp_all [ClaimPolicy.count]
      rw [hnothing, List.append_nil] at hheld
      simp only [lane, hheld]
      simp [step, Inbox.reserve, sentTo, handedOverAt, discardedAt, hsame]
    · right
      -- the new batch is the only one, so none was held before
      have hfree : desk.heldAt target = [] := by
        refine flatMap_heldFor_eq_nil fun r hr hopen => ?_
        by_contra hholds
        obtain ⟨i, hi⟩ := List.mem_iff_getElem?.mp hr
        have hlt := (List.getElem?_eq_some_iff.mp hi).1
        have heq := hone i desk.reservations.length r ⟨target, (desk.inbox.claim target policy).1, false⟩
          (by simp only [step, Inbox.reserve]; rw [List.getElem?_append_left hlt, hi])
          (by simp [step, Inbox.reserve]) hopen rfl hholds hnothing
        omega
      rw [hfree, List.nil_append, Inbox.claim_fst] at hheld
      have hlane : (desk.step uuid (.reserve target policy)).lane target =
          (desk.lane target).checkOut (policy.count (desk.inbox.queue target).length) := by
        simp only [lane, Checkout.Lane.checkOut, hheld]
        simp [step, Inbox.reserve, sentTo, handedOverAt, discardedAt, hqueue]
      rw [hlane]
      exact .checkOut _ _ hfree
  · left
    rw [if_neg htarget, List.append_nil] at hheld
    rw [if_neg htarget] at hqueue
    simp only [lane, hheld]
    simp [step, Inbox.reserve, sentTo, handedOverAt, discardedAt, hqueue]

theorem advances_commit (uuid : Nat → String) {desk : Desk} (hone : desk.OneHeld) (n : Nat) (target : InboxTarget) :
    Advances desk (desk.step uuid (.commit n)) target := by
  simp only [step]
  cases hr : desk.reservations[n]? with
  | none => exact .inl rfl
  | some r =>
    cases hopen : r.settled with
    | true => simp [Reservation.commit, hopen, Advances]
    | false =>
      simp only [Reservation.commit, hopen, Bool.false_eq_true, if_false]
      by_cases hempty : r.envelopes = []
      · left
        have hheld := heldAt_settle_empty hr hempty target
        simp [lane, sentTo, handedOverAt, discardedAt, heldAt, Record.handOver, hempty] at hheld ⊢
        exact hheld
      · obtain ⟨hbefore, hafter⟩ := heldAt_of_oneHeld hone hr hopen hempty target
        by_cases htarget : r.target = target
        · right
          subst htarget
          rw [if_pos rfl, heldAt] at hbefore
          have hlane : lane
              { desk with
                reservations := desk.reservations.set n { r with settled := true }
                record := desk.record.handOver r.target true [] r.envelopes } r.target =
              (desk.lane r.target).commit := by
            simp only [lane, Checkout.Lane.commit, hbefore, heldAt, hafter]
            simp [sentTo, handedOverAt, discardedAt, Record.handOver, List.filter_map, Function.comp_def]
          rw [hlane]
          exact .commit _
        · left
          rw [if_neg htarget] at hbefore
          simp only [lane, hbefore]
          simp [heldAt, hafter, sentTo, handedOverAt, discardedAt, Record.handOver, htarget, List.filter_map,
            Function.comp_def]

theorem advances_rollback (uuid : Nat → String) {desk : Desk} (hone : desk.OneHeld) (n : Nat) (target : InboxTarget) :
    Advances desk (desk.step uuid (.rollback n)) target := by
  simp only [step]
  cases hr : desk.reservations[n]? with
  | none => exact .inl rfl
  | some r =>
    cases hopen : r.settled with
    | true => simp [Reservation.rollback, hopen, Advances]
    | false =>
      simp only [Reservation.rollback, hopen, Bool.false_eq_true, if_false]
      by_cases hempty : r.envelopes = []
      · left
        have hheld := heldAt_settle_empty hr hempty target
        have hqueue : (desk.inbox.setQueue r.target (r.envelopes ++ desk.inbox.queue r.target)).queue target =
            desk.inbox.queue target := by grind [Inbox.queue_setQueue]
        simp [lane, sentTo, handedOverAt, discardedAt, heldAt, hqueue, -Inbox.queue_setQueue] at hheld ⊢
        exact hheld
      · obtain ⟨hbefore, hafter⟩ := heldAt_of_oneHeld hone hr hopen hempty target
        by_cases htarget : r.target = target
        · right
          subst htarget
          rw [if_pos rfl, heldAt] at hbefore
          have hlane : lane
              { desk with
                inbox := desk.inbox.setQueue r.target (r.envelopes ++ desk.inbox.queue r.target)
                reservations := desk.reservations.set n { r with settled := true } } r.target =
              (desk.lane r.target).rollback := by
            simp only [lane, Checkout.Lane.rollback, hbefore, heldAt, hafter]
            simp [sentTo, handedOverAt, discardedAt]
          rw [hlane]
          exact .rollback _
        · left
          rw [if_neg htarget] at hbefore
          simp only [lane, hbefore]
          simp [heldAt, hafter, sentTo, handedOverAt, discardedAt, htarget]

/-- Every operation on a desk is one of its lanes'. -/
theorem step_lane (uuid : Nat → String) {desk : Desk} (hone : desk.OneHeld) (operation : InboxOperation)
    (hone' : (desk.step uuid operation).OneHeld) (target : InboxTarget) :
    Advances desk (desk.step uuid operation) target := by
  cases operation with
  | send message target' wakeup origin => exact advances_send uuid desk message target' wakeup origin target
  | claim target' policy => exact advances_claim uuid desk target' policy target
  | clear target' => exact advances_clear uuid desk target' target
  | clearAll => exact advances_clearAll uuid desk target
  | takeWake => exact .inl (by simp [step, lane, Inbox.takeWake, sentTo, heldAt, handedOverAt, discardedAt])
  | reserve target' policy => exact advances_reserve uuid desk target' policy hone' target
  | commit n => exact advances_commit uuid hone n target
  | rollback n => exact advances_rollback uuid hone n target

/-- The lanes of a run are reachable. -/
theorem lane_reachable (uuid : Nat → String) {operations : List InboxOperation}
    (hone : OneHeldThroughout uuid operations) (target : InboxTarget) :
    ((run uuid operations).lane target).Reachable := by
  induction operations using List.reverseRecOn with
  | nil => cases target <;> exact Relation.ReflTransGen.refl
  | append_singleton operations operation ih =>
    have hone' : OneHeldThroughout uuid operations := fun earlier later hsplit =>
      hone earlier (later ++ [operation]) (by rw [hsplit, List.append_assoc])
    have hrun : run uuid (operations ++ [operation]) = (run uuid operations).step uuid operation := by
      rw [run, List.foldl_append]
      rfl
    have hbefore := hone operations [operation] rfl
    have hafter := hone (operations ++ [operation]) [] (List.append_nil _).symm
    rw [hrun] at hafter ⊢
    rcases step_lane uuid hbefore operation hafter target with hsame | hstep
    · rw [hsame]
      exact ih hone'
    · exact (ih hone').tail hstep

/-! ## Conservation -/

/-- Where the envelopes of a target are. -/
def placesOf (desk : Desk) (target : InboxTarget) : List InputEnvelope :=
  desk.inbox.queue target ++ desk.heldAt target ++ desk.claimedAt target ++ desk.committedAt target ++
    desk.discardedAt target

/-- What a run conserves. -/
structure Conserved (desk : Desk) : Prop where
  /-- Every envelope sent to a target is in one place of that target. -/
  placed : ∀ target, (desk.placesOf target).Perm (desk.sentTo target)
  /-- No envelope is in two places, or twice in one. -/
  once : ((desk.placesOf .nextTurn ++ desk.placesOf .nextStep).map InputEnvelope.id).Nodup
  /-- The envelopes of a target are handed over in the order they were sent,
  except that what was held meanwhile may come later. -/
  ordered : ∀ target, (desk.handedOverAt target).Pairwise fun d e => Checkout.Follows (desk.sentTo target) d e.item
  /-- What is rolled back comes ahead of everything queued. -/
  restored : ∀ (uuid : Nat → String) (n : Nat), ∀ r ∈ desk.reservations[n]?, r.settled = false →
    (desk.step uuid (.rollback n)).inbox.queue r.target = r.envelopes ++ desk.inbox.queue r.target

/-- What was handed over was claimed or committed. -/
theorem handedOver_perm (desk : Desk) (target : InboxTarget) :
    ((desk.handedOverAt target).map Checkout.Delivery.item).Perm
    (desk.claimedAt target ++ desk.committedAt target) := by
  have hparts := List.filter_append_perm (fun handed : Handover => !handed.committed)
    (desk.record.handedOver.filter fun handed => handed.target = target)
  have hitems := hparts.map fun handed => handed.delivery.item
  rw [List.map_append, List.filter_filter, List.filter_filter] at hitems
  simp only [handedOverAt, claimedAt, committedAt, List.map_map, Function.comp_def]
  refine (hitems.symm).trans (List.Perm.of_eq ?_)
  simp [Bool.and_comm]

theorem sentTo_perm (desk : Desk) :
    (desk.sentTo .nextTurn ++ desk.sentTo .nextStep).Perm (desk.record.sent.map Prod.snd) := by
  have hparts := List.filter_append_perm (fun sent : InboxTarget × InputEnvelope => decide (sent.1 = .nextTurn))
    desk.record.sent
  have hother : (fun sent : InboxTarget × InputEnvelope => !decide (sent.1 = .nextTurn)) =
      fun sent => decide (sent.1 = .nextStep) := by
    funext sent
    cases sent.1 <;> rfl
  rw [hother] at hparts
  simpa [sentTo] using hparts.map Prod.snd

/-- The ids are the draws, in order. -/
theorem sent_ids (uuid : Nat → String) (operations : List InboxOperation) :
    (run uuid operations).record.sent.map (fun sent => sent.2.id) =
      (List.range (run uuid operations).record.sent.length).map uuid := by
  induction operations using List.reverseRecOn with
  | nil => rfl
  | append_singleton operations operation ih =>
    have hrun : run uuid (operations ++ [operation]) = (run uuid operations).step uuid operation := by
      rw [run, List.foldl_append]
      rfl
    rw [hrun]
    generalize run uuid operations = desk at ih ⊢
    cases operation with
    | send message target wakeup origin =>
      simp only [step]
      cases hsend : desk.inbox.send (uuid desk.record.sent.length) message target wakeup origin with
      | error e => exact ih
      | ok result =>
        obtain ⟨envelope, inbox⟩ := result
        obtain ⟨rfl, -⟩ := Inbox.queue_send hsend
        simp [ih, List.range_succ]
    | claim target policy => exact ih
    | clear target => exact ih
    | clearAll => exact ih
    | takeWake => exact ih
    | reserve target policy => exact ih
    | commit n =>
      simp only [step]
      split
      · exact ih
      · split <;> exact ih
    | rollback n =>
      simp only [step]
      split
      · exact ih
      · split <;> exact ih

end Desk

/-- Every run of an inbox conserves its envelopes: each is in one place, none
is handed over twice, and those of a target come in send order, except that
claims made while a reservation holds a batch may overtake it. -/
theorem inbox_conserves (uuid : Nat → String) (huuid : Function.Injective uuid) (operations : List InboxOperation)
    (hone : Desk.OneHeldThroughout uuid operations) : (Desk.run uuid operations).Conserved := by
  have hsound : ∀ target, Checkout.Sound ((Desk.run uuid operations).lane target) := fun target =>
    Checkout.sound_of_reachable (Desk.lane_reachable uuid hone target)
  have hplaced : ∀ target,
      ((Desk.run uuid operations).placesOf target).Perm ((Desk.run uuid operations).sentTo target) := by
    intro target
    refine List.Perm.trans ?_ (hsound target).placed
    simp only [Desk.placesOf, Desk.lane]
    rw [List.append_assoc (_ ++ _) (Desk.claimedAt _ _)]
    exact (((Desk.run uuid operations).handedOver_perm target).symm.append_left _).append_right _
  constructor
  · exact hplaced
  · have hids := (((hplaced .nextTurn).append (hplaced .nextStep)).trans
      (Desk.run uuid operations).sentTo_perm).map InputEnvelope.id
    rw [hids.nodup_iff, List.map_map]
    have hdraws := Desk.sent_ids uuid operations
    rw [show (InputEnvelope.id ∘ Prod.snd : InboxTarget × InputEnvelope → String) = fun sent => sent.2.id from rfl,
      hdraws]
    exact List.nodup_range.map huuid
  · exact fun target => (hsound target).ordered
  · intro uuid' n r hr hopen
    simp [Desk.step, Option.mem_def.mp hr, Reservation.rollback, hopen]

/-- Draws for examples: the texts of `x`s. -/
def drawXs (n : Nat) : String := String.ofList (List.replicate n 'x')

theorem drawXs_injective : Function.Injective drawXs := by
  intro m n h
  have hlist := congrArg String.toList h
  simp only [drawXs, String.toList_ofList] at hlist
  simpa using congrArg List.length hlist

/-- An observer claims the second of two prompts while the first is reserved,
and the run entry fails. -/
def overtaking : List InboxOperation :=
  [.followup (.user { content := .text "A", timestamp := 0 }) .none,
    .followup (.user { content := .text "B", timestamp := 0 }) .none,
    .reserve .nextTurn .oneAtATime, .claim .nextTurn .oneAtATime, .rollback 0, .claim .nextTurn .oneAtATime]

theorem oneHeld_overtaking : Desk.OneHeldThroughout drawXs overtaking := by
  have hsingle : ∀ k ≤ overtaking.length, (Desk.run drawXs (overtaking.take k)).reservations.length ≤ 1 := by decide
  intro earlier later hsplit i j r r' hi hj _ _ _ _
  have hlength := hsingle earlier.length (by rw [hsplit, List.length_append]; omega)
  rw [hsplit, List.take_left] at hlength
  have hi' := (List.getElem?_eq_some_iff.mp hi).1
  have hj' := (List.getElem?_eq_some_iff.mp hj).1
  omega

theorem inbox_conserves_overtaking : (Desk.run drawXs overtaking).Conserved :=
  inbox_conserves drawXs drawXs_injective overtaking oneHeld_overtaking

/-- The reserved prompt is then handed over after the one sent later. -/
theorem inbox_overtaken :
    ¬ ∀ (uuid : Nat → String), Function.Injective uuid → ∀ operations, Desk.OneHeldThroughout uuid operations →
      ∀ target, ((Desk.run uuid operations).handedOverAt target).Pairwise fun d e =>
        [d.item, e.item].Sublist ((Desk.run uuid operations).sentTo target) := by
  intro h
  have hordered := h drawXs drawXs_injective overtaking oneHeld_overtaking .nextTurn
  revert hordered
  decide

end MinionAgent
