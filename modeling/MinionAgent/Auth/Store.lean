import MinionAgent.Auth.WriteQueue
import MinionAgent.Library.Transition

/-!
# MinionAgent.Auth.Store

The Python `InMemoryCredentialStore`: each call makes a task that awaits the
tail of the call before, and a tail of its own that awaits this task.

An event is what one task does at one of its awaits.  To cancel a task cancels
what it awaits, so a cancelled call reaches the tasks before it
(`requestCancel`), and those behind it await a tail that is cancelled.
-/

namespace MinionAgent

/-- The `tail` task of a call. -/
inductive TailPhase
  | pending (mustCancel : Bool)
  | done
  | cancelled
deriving DecidableEq

/-- What a call keeps of its tasks: a `CancelledError` is to be raised at the
await of `queued`, and where `tail` is. -/
structure StoreTasks where
  mustCancel : Bool := false
  tail : TailPhase := .pending false
deriving DecidableEq

/-- The store. -/
abbrev CredentialStore (γ : Type) : Type := WriteQueue StoreTasks γ

/-- What can happen on the loop. -/
inductive StoreEvent (γ : Type)
  | call (provider : String) (operation : StoreOperation) (hasSignal : Bool)
  | abort (i : Nat)
  | stepQueued (i : Nat)
  | callback (i : Nat) (callback : CallbackEnd γ)
  | stepTail (i : Nat)
  | prune (i : Nat)
  | finish (i : Nat)
  | giveUp (i : Nat)
  | cancel (i : Nat)

namespace CredentialStore

open WriteQueue

variable {γ : Type}

/-- `_enqueue`. -/
def enqueue (q : CredentialStore γ) (provider : String) (operation : StoreOperation) (hasSignal : Bool) :
    CredentialStore γ :=
  link { q with calls := q.calls ++ [{ provider, operation, hasSignal, aborted := false, extra := {} }] } q.calls.length
    provider

/-- A task is cancelled: the request goes to what it awaits, down to a task that
has not run yet, is about to go on, or is in its callback. -/
def requestCancel (calls : List (StoreCall StoreTasks γ)) : Nat → Nat → List (StoreCall StoreTasks γ)
  | 0, _ => calls
  | fuel + 1, i =>
    let mark := calls.modify i fun call => { call with extra := { call.extra with mustCancel := true } }
    match calls[i]? with
    | none => calls
    | some call =>
      match call.phase, call.previous with
      | .created, _ => mark
      | .running, _ => mark
      | .done, _ => calls
      | .waiting, none => mark
      | .waiting, some p =>
        match calls[p]? with
        | none => mark
        | some before =>
          if before.released then mark
          else if before.outcome.isSome then
            calls.modify p fun call => { call with extra := { call.extra with tail := .pending true } }
          else requestCancel calls fuel p

/-- The task of the operation ends by a `CancelledError`. -/
def cancelQueued (q : CredentialStore γ) (i : Nat) : CredentialStore γ :=
  q.modify i fun call => { call with phase := .done, outcome := some .cancelled }

/-- The tail that is awaited has been cancelled. -/
def isTailCancelled (q : CredentialStore γ) : Option Nat → Bool
  | none => false
  | some p => (q.calls[p]?).elim false fun call => decide (call.extra.tail = .cancelled)

/-- What the tasks of a call do. -/
def act (q : CredentialStore γ) (call : StoreCall StoreTasks γ) : StoreEvent γ → Option (CredentialStore γ)
  | .call _ _ _ => none
  | .abort i => if call.hasSignal then some (q.modify i fun call => { call with aborted := true }) else none
  | .stepQueued i =>
    match call.phase with
    | .created | .waiting =>
      if call.extra.mustCancel then some (cancelQueued q i)
      else if q.isReleased call.previous then
        if isTailCancelled q call.previous then some (cancelQueued q i) else some (takeTurn q i call)
      else if call.phase = .created then some (q.modify i fun call => { call with phase := .waiting })
      else none
    | _ => none
  | .callback i callback =>
    match call.phase, callback with
    | .running, .cancelled => if call.extra.mustCancel then some (endCallback q i call .cancelled) else none
    | .running, callback => some (endCallback q i call callback)
    | _, _ => none
  | .stepTail i =>
    match call.extra.tail, call.outcome with
    | .pending mustCancel, some outcome =>
      let tail := match mustCancel, outcome with
        | true, _ => TailPhase.cancelled
        | false, .cancelled => .cancelled
        | false, _ => .done
      some (q.modify i fun call => { call with released := true, extra := { call.extra with tail := tail } })
    | _, _ => none
  | .prune i =>
    if call.released ∧ q.chains call.provider = some i then
      some { q with chains := Function.update q.chains call.provider none }
    else none
  | .finish i =>
    match call.outcome, call.result with
    | some outcome, none => some (q.modify i fun call => { call with result := some outcome })
    | _, _ => none
  | .giveUp i =>
    if call.aborted ∧ call.result.isNone then some (q.modify i fun call => { call with result := some .aborted })
    else none
  | .cancel i =>
    if call.result.isSome then none
    else if call.hasSignal ∨ call.outcome.isSome then
      -- it awaits `asyncio.wait`, or a task that is done
      some (q.modify i fun call => { call with result := some .cancelled })
    else some { q with calls := requestCancel q.calls (q.calls.length + 1) i }

end CredentialStore

/-- The call an event is about, but for a new one. -/
def StoreEvent.target {γ : Type} : StoreEvent γ → Option Nat
  | .call _ _ _ => none
  | .abort i | .stepQueued i | .callback i _ | .stepTail i | .prune i | .finish i | .giveUp i | .cancel i => some i

namespace CredentialStore

open WriteQueue

variable {γ : Type}

/-- One event. -/
def step (q : CredentialStore γ) : StoreEvent γ → Option (CredentialStore γ)
  | .call provider operation hasSignal => some (enqueue q provider operation hasSignal)
  | event => do
    let i ← event.target
    let call ← q.calls[i]?
    act q call event

/-- The state after a list of events. -/
def run (initial : String → Option γ) (es : List (StoreEvent γ)) : Option (CredentialStore γ) :=
  Transition.run step { stored := initial } es

/-- The event cancels no call whose signal is none and whose operation has not
ended. -/
def Considerate (q : CredentialStore γ) : StoreEvent γ → Prop
  | .cancel i => ∀ call, q.calls[i]? = some call → call.hasSignal = true ∨ call.outcome.isSome = true
  | _ => True

/-- The tasks of an operation can go on. -/
def CanStep (q : CredentialStore γ) (i : Nat) : Prop :=
  (∃ q', step q (.stepQueued i) = some q') ∨ ∃ q', step q (.stepTail i) = some q'

/-! ## The invariant -/

/-- No task of the call is cancelled, and its tail is released with it. -/
structure IsCalm (call : StoreCall StoreTasks γ) : Prop where
  scope : call.scope = some call.provider
  mustCancel : call.extra.mustCancel = false
  tail : call.extra.tail = if call.released then .done else .pending false
  outcome : call.outcome ≠ some .cancelled

/-- What a step keeps that cancels no operation. -/
structure Calm (initial : String → Option γ) (q : CredentialStore γ) : Prop where
  orderly : Orderly initial q
  calm : ∀ (i : Nat) (call : StoreCall StoreTasks γ), q.calls[i]? = some call → IsCalm call

variable {initial : String → Option γ} {q q' : CredentialStore γ} {i : Nat} {call call' : StoreCall StoreTasks γ}

theorem calm_empty : Calm initial ({ stored := initial } : CredentialStore γ) := ⟨orderly_empty, by simp⟩

/-- A step of one call. -/
theorem Calm.change (h : Calm initial q) (hchanged : Table.Changed q.calls q'.calls i call call')
    (horderly : Orderly initial q') (hcalm : IsCalm call') : Calm initial q' :=
  ⟨horderly, hchanged.forall h.calm hcalm⟩

/-- A step that leaves the operation of a call where it is. -/
theorem Calm.same (h : Calm initial q) (hi : q.calls[i]? = some call)
    {f : StoreCall StoreTasks γ → StoreCall StoreTasks γ}
    (hfits : Fits (f call)) (hbegun : HasBegun (f call) ↔ HasBegun call) (hscope : (f call).scope = call.scope)
    (hprevious : (f call).previous = call.previous) (hreleased : (f call).released = call.released)
    (hreceived : (f call).received = call.received) (heffect : (f call).effect = call.effect)
    (hcalm : IsCalm (f call)) : Calm initial (q.modify i f) :=
  h.change (Table.changed_modify hi f)
    (h.orderly.same (Table.changed_modify hi f) hfits hbegun hscope hprevious hreleased hreceived heffect rfl rfl
      rfl) hcalm

theorem calm_enqueue (h : Calm initial q) (provider : String) (operation : StoreOperation) (hasSignal : Bool) :
    Calm initial (enqueue q provider operation hasSignal) := by
  let new : StoreCall StoreTasks γ := { provider, operation, hasSignal, aborted := false, extra := {} }
  have hnew : ({ q with calls := q.calls ++ [new] } : CredentialStore γ).calls[q.calls.length]? = some new :=
    List.getElem?_concat_length
  have happended : Orderly initial ({ q with calls := q.calls ++ [new] } : CredentialStore γ) :=
    h.orderly.append rfl rfl rfl rfl rfl rfl rfl
  refine ⟨happended.link hnew rfl fun j other hj hscope => ?_, fun j other hj => ?_⟩
  · rcases Table.getElem?_concat_cases hj with hold | ⟨-, rfl⟩
    · exact (List.getElem?_eq_some_iff.mp hold).1
    · simp [new] at hscope
  · rcases Table.getElem?_modify_cases hj with ⟨rfl, old, hold, rfl⟩ | ⟨hne, hold⟩
    · rw [hnew] at hold
      cases hold
      exact ⟨rfl, rfl, rfl, by simp [new]⟩
    · rcases Table.getElem?_concat_cases hold with hold | ⟨rfl, -⟩
      · exact h.calm j other hold
      · exact absurd rfl hne

/-- No tail that is awaited has been cancelled. -/
theorem Calm.not_tailCancelled (h : Calm initial q) (previous : Option Nat) : isTailCancelled q previous = false := by
  cases previous with
  | none => rfl
  | some p =>
    cases hp : q.calls[p]? with
    | none => simp [isTailCancelled, hp]
    | some before =>
      have htail := (h.calm p before hp).tail
      simp only [isTailCancelled, hp, Option.elim_some, htail]
      split <;> simp

theorem calm_takeTurn (h : Calm initial q) (hi : q.calls[i]? = some call) (hidle : ¬ HasBegun call)
    (hreleased : q.isReleased call.previous = true) : Calm initial (takeTurn q i call) := by
  obtain ⟨hscope, hmust, htail, -⟩ := h.calm i call hi
  have hturn := h.orderly.turn hi (by simp [hscope]) hreleased
  refine ⟨h.orderly.takeTurn hi hidle hscope hturn, ?_⟩
  obtain ⟨heffect, houtcome, -⟩ := (h.orderly.fits i call hi).idle hidle
  rw [takeTurn]
  split
  case isTrue => exact (Table.changed_modify hi _).forall h.calm ⟨hscope, hmust, htail, by simp⟩
  case isFalse =>
    split
    case h_1 => exact (Table.changed_modify hi _).forall h.calm ⟨hscope, hmust, htail, by simp⟩
    case h_2 => exact (Table.changed_modify hi _).forall h.calm ⟨hscope, hmust, htail, by simp [houtcome]⟩

theorem calm_endCallback (h : Calm initial q) (hi : q.calls[i]? = some call) (hphase : call.phase = .running)
    {callback : CallbackEnd γ} (hcallback : ∀ current aborted, (callback.settle current aborted).1 ≠ .cancelled) :
    Calm initial (endCallback q i call callback) := by
  obtain ⟨hscope, hmust, htail, -⟩ := h.calm i call hi
  refine ⟨h.orderly.endCallback hi hphase (hcallback _ _), ?_⟩
  have hnot := hcallback (call.received.getD none) call.aborted
  rw [endCallback]
  split
  case h_1 outcome value hsettle =>
    rw [hsettle] at hnot
    exact (Table.changed_modify hi _).forall h.calm ⟨hscope, hmust, htail, by simpa using hnot⟩
  case h_2 outcome hsettle =>
    rw [hsettle] at hnot
    exact (Table.changed_modify hi _).forall h.calm ⟨hscope, hmust, htail, by simpa using hnot⟩

/-- A task that has not begun goes on. -/
theorem act_stepQueued (h : Calm initial q) (hi : q.calls[i]? = some call)
    (hphase : call.phase = .created ∨ call.phase = .waiting) :
    act q call (.stepQueued i) = if q.isReleased call.previous then some (takeTurn q i call)
      else if call.phase = .created then some (q.modify i fun call => { call with phase := .waiting })
      else none := by
  have hmust := (h.calm i call hi).mustCancel
  have htail := h.not_tailCancelled call.previous
  rcases hphase with hphase | hphase <;> simp [act, hphase, hmust, htail]

/-- A step that changes what the caller knows only. -/
theorem Calm.caller (h : Calm initial q) (hi : q.calls[i]? = some call) (result : Option (StoreOutcome γ)) :
    Calm initial (q.modify i fun call => { call with result }) := by
  have hfits := h.orderly.fits i call hi
  obtain ⟨hscope, hmust, htail, hnot⟩ := h.calm i call hi
  exact h.same hi ⟨hfits.scope, hfits.idle, hfits.running, hfits.done⟩ Iff.rfl rfl rfl rfl rfl rfl
    ⟨hscope, hmust, htail, hnot⟩

theorem calm_abort (h : Calm initial q) (hi : q.calls[i]? = some call) :
    Calm initial (q.modify i fun call => { call with aborted := true }) := by
  have hfits := h.orderly.fits i call hi
  obtain ⟨hscope, hmust, htail, hnot⟩ := h.calm i call hi
  refine h.same hi ?_ Iff.rfl rfl rfl rfl rfl rfl ⟨hscope, hmust, htail, hnot⟩
  refine ⟨hfits.scope, hfits.idle, hfits.running, fun hphase => ?_⟩
  obtain ⟨outcome, hout, hown, hsilent⟩ := hfits.done hphase
  exact ⟨outcome, hout, hown.imp_left fun hown => ⟨hown.1, rfl⟩, hsilent⟩

theorem calm_stepQueued (h : Calm initial q) (hi : q.calls[i]? = some call)
    (hact : act q call (.stepQueued i) = some q') : Calm initial q' := by
  have hfits := h.orderly.fits i call hi
  obtain ⟨hscope, hmust, htail, hnot⟩ := h.calm i call hi
  have hphase : call.phase = .created ∨ call.phase = .waiting := by
    cases hphase : call.phase <;> simp [act, hphase] at hact ⊢
  have hidle : ¬ HasBegun call := by rcases hphase with hphase | hphase <;> simp [HasBegun, hphase]
  rw [act_stepQueued h hi hphase] at hact
  split at hact
  case isTrue hreleased =>
    cases hact
    exact calm_takeTurn h hi hidle hreleased
  case isFalse =>
    split at hact
    case isFalse => contradiction
    case isTrue =>
      cases hact
      refine h.same hi ⟨hfits.scope, fun _ => hfits.idle hidle, by simp, by simp⟩ ?_ rfl rfl rfl rfl rfl
        ⟨hscope, hmust, htail, hnot⟩
      exact iff_of_false (by simp [HasBegun]) hidle

/-- A callback that was not cancelled ends. -/
theorem act_callback {callback : CallbackEnd γ} (hnever : callback ≠ .cancelled)
    (hact : act q call (.callback i callback) = some q') :
    call.phase = .running ∧ q' = endCallback q i call callback := by
  simp only [act] at hact
  split at hact
  case h_1 => exact absurd rfl hnever
  case h_2 hphase _ => exact ⟨hphase, (Option.some.inj hact).symm⟩
  case h_3 => contradiction

theorem calm_callback (h : Calm initial q) (hi : q.calls[i]? = some call) {callback : CallbackEnd γ}
    (hact : act q call (.callback i callback) = some q') : Calm initial q' := by
  have hnever : callback ≠ .cancelled := by
    rintro rfl
    cases hphase : call.phase <;> simp [act, hphase, (h.calm i call hi).mustCancel] at hact
  obtain ⟨hphase, rfl⟩ := act_callback hnever hact
  exact calm_endCallback h hi hphase (CallbackEnd.settle_ne_cancelled hnever)

theorem calm_stepTail (h : Calm initial q) (hi : q.calls[i]? = some call)
    (hact : act q call (.stepTail i) = some q') : Calm initial q' := by
  have hfits := h.orderly.fits i call hi
  obtain ⟨hscope, hmust, htail, hnot⟩ := h.calm i call hi
  simp only [act] at hact
  split at hact
  case h_2 => contradiction
  case h_1 mustCancel outcome hpending hout =>
    cases hact
    have hphase : call.phase = .done := hfits.phase_of_outcome (by simp [hout])
    have hmustTail : mustCancel = false := by
      rw [hpending] at htail
      split at htail <;> simp at htail
      exact htail
    have hchanged := Table.changed_modify hi fun call : StoreCall StoreTasks γ =>
      { call with released := true, extra := { call.extra with tail := .done } }
    have hend : (match mustCancel, outcome with
        | true, _ => TailPhase.cancelled
        | false, .cancelled => .cancelled
        | false, _ => .done) = .done := by
      subst hmustTail
      cases outcome with
      | cancelled => exact absurd hout hnot
      | ok value | raised message | aborted => rfl
    rw [hend]
    refine h.change hchanged (h.orderly.release hchanged ?_ rfl (.inr hphase) rfl rfl rfl rfl rfl rfl rfl rfl)
      ⟨hscope, hmust, rfl, hnot⟩
    exact ⟨hfits.scope, fun hidle => absurd (Or.inr hphase) hidle, by simp [hphase], hfits.done⟩

/-- A task goes on, or its call is cancelled with consideration. -/
theorem calm_act {event : StoreEvent γ} (h : Calm initial q) (hconsiderate : Considerate q event)
    (htarget : event.target = some i) (hi : q.calls[i]? = some call) (hact : act q call event = some q') :
    Calm initial q' := by
  cases event with
  | call provider operation hasSignal => simp [act] at hact
  | abort j =>
    cases htarget
    simp only [act, Option.ite_none_right_eq_some, Option.some.injEq] at hact
    exact hact.2 ▸ calm_abort h hi
  | stepQueued j =>
    cases htarget
    exact calm_stepQueued h hi hact
  | callback j callback =>
    cases htarget
    exact calm_callback h hi hact
  | stepTail j =>
    cases htarget
    exact calm_stepTail h hi hact
  | prune j =>
    cases htarget
    simp only [act, Option.ite_none_right_eq_some, Option.some.injEq] at hact
    obtain ⟨hguard, rfl⟩ := hact
    exact ⟨h.orderly.clear hi hguard.1 hguard.2 rfl rfl rfl rfl, h.calm⟩
  | finish j =>
    cases htarget
    simp only [act] at hact
    split at hact
    case h_2 => contradiction
    case h_1 => exact Option.some.inj hact ▸ h.caller hi _
  | giveUp j =>
    cases htarget
    simp only [act, Option.ite_none_right_eq_some, Option.some.injEq] at hact
    exact hact.2 ▸ h.caller hi _
  | cancel j =>
    cases htarget
    simp only [act] at hact
    split at hact
    case isTrue => contradiction
    case isFalse =>
      rw [if_pos (hconsiderate call hi)] at hact
      exact Option.some.inj hact ▸ h.caller hi _

theorem step_of_target {event : StoreEvent γ} (h : event.target = some i) :
    step q event = (q.calls[i]?).bind (act q · event) := by
  cases event with
  | call provider operation hasSignal => simp [StoreEvent.target] at h
  | abort j | stepQueued j | callback j _ | stepTail j | prune j | finish j | giveUp j | cancel j =>
    cases h
    rfl

/-- A considerate step keeps the invariant. -/
theorem calm_step {event : StoreEvent γ} (h : Calm initial q) (hconsiderate : Considerate q event)
    (hstep : step q event = some q') : Calm initial q' := by
  cases htarget : event.target with
  | some i =>
    rw [step_of_target htarget] at hstep
    obtain ⟨call, hi, hact⟩ := Option.bind_eq_some_iff.mp hstep
    exact calm_act h hconsiderate htarget hi hact
  | none =>
    cases event with
    | call provider operation hasSignal =>
      cases hstep
      exact calm_enqueue h provider operation hasSignal
    | abort j | stepQueued j | callback j _ | stepTail j | prune j | finish j | giveUp j | cancel j =>
      simp [StoreEvent.target] at htarget

/-- And so does a run of such steps. -/
theorem calm_run {es : List (StoreEvent γ)} (hconsiderate : Transition.Along step Considerate { stored := initial } es)
    (h : run initial es = some q) : Calm initial q :=
  Transition.run_preserves_along (fun _ _ _ hcalm hcons hstep => calm_step hcalm hcons hstep) h hconsiderate calm_empty

/-! ## Progress -/

/-- An operation that has not ended is in its callback, can go on, or awaits
one before it of which this is true. -/
theorem Calm.progress (h : Calm initial q) : ∀ (i : Nat) (call : StoreCall StoreTasks γ), q.calls[i]? = some call →
    call.outcome = none → ∃ (j : Nat) (call' : StoreCall StoreTasks γ), j ≤ i ∧ q.calls[j]? = some call' ∧
      call'.provider = call.provider ∧ (call'.phase = .running ∨ CanStep q j) := by
  intro i
  induction i using Nat.strongRecOn with
  | ind i ih =>
    intro call hi hout
    have hscope := (h.calm i call hi).scope
    have hfits := h.orderly.fits i call hi
    by_cases hrunning : call.phase = .running
    · exact ⟨i, call, Nat.le_refl i, hi, rfl, .inl hrunning⟩
    have hphase : call.phase = .created ∨ call.phase = .waiting := by
      cases hphase : call.phase with
      | created => exact .inl rfl
      | waiting => exact .inr rfl
      | running => exact absurd hphase hrunning
      | done =>
        obtain ⟨outcome, hsome, -⟩ := hfits.done hphase
        simp [hout] at hsome
    by_cases hreleased : q.isReleased call.previous = true
    · refine ⟨i, call, Nat.le_refl i, hi, rfl, .inr (.inl ⟨takeTurn q i call, ?_⟩)⟩
      rw [step_of_target (i := i) rfl, hi, Option.bind_some, act_stepQueued h hi hphase, if_pos hreleased]
    -- it awaits the tail of an earlier operation of its provider id
    cases hprevious : call.previous with
    | none => simp [hprevious, isReleased] at hreleased
    | some p =>
      have hcurrent : q.turnsView.current i = some p := by rw [turnsView_current hi, hprevious]
      obtain ⟨hlt, hscopeP⟩ := h.orderly.fifo.current_lt i call.provider p (by rw [turnsView_scope hi, hscope]) hcurrent
      obtain ⟨before, hbefore, hscopeB⟩ := Option.bind_eq_some_iff.mp hscopeP
      have hprovider : before.provider = call.provider :=
        ((h.orderly.fits p before hbefore).scope call.provider hscopeB).symm
      have hopen : before.released = false := by
        simpa [hprevious, isReleased, hbefore] using hreleased
      cases hend : before.outcome with
      | none =>
        obtain ⟨j, call', hle, hj, hsame, hstep⟩ := ih p hlt before hbefore hend
        exact ⟨j, call', by omega, hj, hsame.trans hprovider, hstep⟩
      | some outcome =>
        have htail := (h.calm p before hbefore).tail
        rw [if_neg (by simp [hopen])] at htail
        refine ⟨p, before, Nat.le_of_lt hlt, hbefore, hprovider, .inr (.inr ?_)⟩
        rw [step_of_target (i := p) rfl, hbefore]
        simp [act, htail, hend]

/-- What there is once the callback of a call has ended. -/
def settled (q : CredentialStore γ) (i : Nat) (callback : CallbackEnd γ) : Option (CredentialStore γ) :=
  step q (.callback i callback)

/-- What holds in every state of a run of considerate steps. -/
theorem Calm.guaranteed (h : Calm initial q) : Guaranteed initial (CanStep q) (settled q) q := by
  refine h.orderly.guaranteed (fun i call callback q' hi hnever hstep => ?_) h.progress
  rw [settled, step_of_target (i := i) rfl, hi] at hstep
  exact act_callback hnever hstep

end CredentialStore

end MinionAgent
