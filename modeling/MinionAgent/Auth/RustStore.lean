import MinionAgent.Auth.Store

/-!
# MinionAgent.Auth.RustStore

The Rust `InMemoryCredentialStore`: each call spawns a task that takes the gate
of its provider id.  The gate is a fair lock, so its order is that in which the
tasks first asked for it; dropping a caller leaves its task running.
-/

namespace MinionAgent

/-- The store; `chains` holds the last task that asked for each gate. -/
abbrev RustCredentialStore (γ : Type) : Type := WriteQueue Unit γ

/-- What can happen, on any thread.  The first poll of a task asks for the
gate. -/
inductive GateEvent (γ : Type)
  | call (provider : String) (operation : StoreOperation) (hasSignal aborted : Bool)
  | abort (i : Nat)
  | poll (i : Nat)
  | acquire (i : Nat)
  | callback (i : Nat) (callback : CallbackEnd γ)
  | unlock (i : Nat)
  | finish (i : Nat)
  | giveUp (i : Nat)
  | drop (i : Nat)

namespace RustCredentialStore

open WriteQueue

variable {γ : Type}

/-- What a task, or its caller, does. -/
def act (q : RustCredentialStore γ) (call : StoreCall Unit γ) : GateEvent γ → Option (RustCredentialStore γ)
  | .call _ _ _ _ => none
  | .abort i => if call.hasSignal then some (q.modify i fun call => { call with aborted := true }) else none
  | .poll i =>
    match call.phase with
    | .created => some ((link q i call.provider).modify i fun call => { call with phase := .waiting })
    | _ => none
  | .acquire i =>
    match call.phase with
    | .waiting => if q.isReleased call.previous then some (takeTurn q i call) else none
    | _ => none
  | .callback i callback =>
    match call.phase, callback with
    | .running, .cancelled => none
    | .running, callback => some (endCallback q i call callback)
    | _, _ => none
  | .unlock i =>
    match call.phase with
    | .done => some (q.modify i fun call => { call with released := true })
    | _ => none
  | .finish i =>
    match call.outcome, call.result with
    | some outcome, none => some (q.modify i fun call => { call with result := some outcome })
    | _, _ => none
  | .giveUp i =>
    if call.aborted ∧ call.result.isNone then some (q.modify i fun call => { call with result := some .aborted })
    else none
  | .drop i =>
      if call.result.isNone then some (q.modify i fun call => { call with result := some .cancelled }) else none

end RustCredentialStore

/-- The call an event is about, but for a new one. -/
def GateEvent.target {γ : Type} : GateEvent γ → Option Nat
  | .call _ _ _ _ => none
  | .abort i | .poll i | .acquire i | .callback i _ | .unlock i | .finish i | .giveUp i | .drop i => some i

namespace RustCredentialStore

open WriteQueue

variable {γ : Type}

/-- One event.  A call whose signal has aborted spawns nothing. -/
def step (q : RustCredentialStore γ) : GateEvent γ → Option (RustCredentialStore γ)
  | .call provider operation hasSignal aborted =>
    if hasSignal && aborted then some q
    else some { q with calls := q.calls ++ [{ provider, operation, hasSignal, aborted := false, extra := () }] }
  | event => do
    let i ← event.target
    let call ← q.calls[i]?
    act q call event

/-- The state after a list of events. -/
def run (initial : String → Option γ) (es : List (GateEvent γ)) : Option (RustCredentialStore γ) :=
  Transition.run step { stored := initial } es

/-- A task is polled first once all those before it of its provider id have
been. -/
def PolledInOrder (q : RustCredentialStore γ) : GateEvent γ → Prop
  | .poll i => ∀ call, q.calls[i]? = some call → ∀ (j : Nat) (other : StoreCall Unit γ), j < i →
      q.calls[j]? = some other → other.provider = call.provider → other.phase ≠ .created
  | _ => True

/-- The task of an operation can go on. -/
def CanStep (q : RustCredentialStore γ) (i : Nat) : Prop :=
  ∃ event ∈ [GateEvent.poll i, .acquire i, .unlock i], PolledInOrder q event ∧ ∃ q', step q event = some q'

/-! ## The invariant -/

/-- What a step keeps that polls in order. -/
structure InOrder (initial : String → Option γ) (q : RustCredentialStore γ) : Prop where
  orderly : Orderly initial q
  scope : ∀ (i : Nat) (call : StoreCall Unit γ), q.calls[i]? = some call →
    (call.phase = .created → call.scope = none) ∧ (call.phase ≠ .created → call.scope = some call.provider)
  polled : ∀ (i j : Nat) (call call' : StoreCall Unit γ), q.calls[i]? = some call → q.calls[j]? = some call' → i < j →
    call.provider = call'.provider → call'.phase ≠ .created → call.phase ≠ .created

variable {initial : String → Option γ} {q q' : RustCredentialStore γ} {i : Nat} {call call' : StoreCall Unit γ}

theorem inOrder_empty : InOrder initial ({ stored := initial } : RustCredentialStore γ) :=
  ⟨orderly_empty, by simp, by simp⟩

/-- A step of a task that has been polled, or of a call. -/
theorem InOrder.change (h : InOrder initial q) (hchanged : Table.Changed q.calls q'.calls i call call')
    (horderly : Orderly initial q') (hprovider : call'.provider = call.provider)
    (hphase : call'.phase = .created ↔ call.phase = .created) (hscope : call'.scope = call.scope) :
    InOrder initial q' := by
  have hold : ∀ (j : Nat) (other : StoreCall Unit γ), q'.calls[j]? = some other →
      ∃ old, q.calls[j]? = some old ∧ old.provider = other.provider ∧ (other.phase = .created ↔ old.phase = .created) ∧
        other.scope = old.scope := by
    refine hchanged.forall (fun j other hj => ⟨other, hj, rfl, Iff.rfl, rfl⟩) ?_
    exact ⟨call, hchanged.before, hprovider.symm, hphase, hscope⟩
  refine ⟨horderly, fun j other hj => ?_, fun j k other other' hj hk hlt hsame hpolled => ?_⟩
  · obtain ⟨old, hj', hsame, hiff, hscope'⟩ := hold j other hj
    obtain ⟨hcreated, hpolled⟩ := h.scope j old hj'
    rw [hscope', ← hsame, Ne, hiff]
    exact ⟨hcreated, hpolled⟩
  · obtain ⟨old, hj', hsame', hiff, -⟩ := hold j other hj
    obtain ⟨old', hk', hsame'', hiff', -⟩ := hold k other' hk
    rw [Ne, hiff]
    refine h.polled j k old old' hj' hk' hlt ?_ (by rwa [Ne, ← hiff'])
    rw [hsame', hsame, hsame'']

/-- A step that leaves the operation of a call where it is. -/
theorem InOrder.same (h : InOrder initial q) (hi : q.calls[i]? = some call) {f : StoreCall Unit γ → StoreCall Unit γ}
    (hfits : Fits (f call)) (hphase : (f call).phase = call.phase) (hscope : (f call).scope = call.scope)
    (hprevious : (f call).previous = call.previous) (hreleased : (f call).released = call.released)
    (hreceived : (f call).received = call.received) (heffect : (f call).effect = call.effect)
    (hprovider : (f call).provider = call.provider) : InOrder initial (q.modify i f) := by
  have hchanged := Table.changed_modify hi f
  refine h.change hchanged ?_ hprovider (by rw [hphase]) hscope
  exact h.orderly.same hchanged hfits (by rw [HasBegun, HasBegun, hphase]) hscope hprevious hreleased hreceived heffect
    rfl rfl rfl

/-- A task is polled first, and asks for its gate. -/
theorem inOrder_poll (h : InOrder initial q) (hi : q.calls[i]? = some call) (hphase : call.phase = .created)
    (hordered : PolledInOrder q (.poll i)) :
    InOrder initial ((link q i call.provider).modify i fun call => { call with phase := .waiting }) := by
  have hnone := (h.scope i call hi).1 hphase
  -- whoever is in the order of the provider id was polled after all before it
  have hnew : ∀ (j : Nat) (other : StoreCall Unit γ), q.calls[j]? = some other → other.scope = some call.provider →
      j < i := by
    intro j other hj hscope
    by_contra hle
    have hpolled : other.phase ≠ .created := fun hcreated => by
      rw [(h.scope j other hj).1 hcreated] at hscope
      contradiction
    rcases Nat.lt_or_eq_of_le (Nat.not_lt.mp hle) with hlt | rfl
    · have hsame := (h.orderly.fits j other hj).scope call.provider hscope
      exact h.polled i j call other hi hj hlt hsame hpolled hphase
    · rw [hi] at hj
      cases hj
      exact hpolled hphase
  have hlinked := h.orderly.link hi hnone hnew
  let linked : StoreCall Unit γ := { call with scope := some call.provider, previous := q.chains call.provider }
  have hlink : Table.Changed q.calls (link q i call.provider).calls i call linked := Table.changed_modify hi _
  have hwait := Table.changed_modify hlink.after fun call : StoreCall Unit γ => { call with phase := .waiting }
  have hfits := hlinked.fits i linked hlink.after
  have hidle : ¬ HasBegun linked := by simp [HasBegun, linked, hphase]
  have horderly : Orderly initial ((link q i call.provider).modify i fun call => { call with phase := .waiting }) := by
    refine hlinked.same hwait ⟨hfits.scope, fun _ => hfits.idle hidle, by simp, by simp⟩ ?_ rfl rfl rfl rfl rfl
      rfl rfl rfl
    exact iff_of_false (by simp [HasBegun]) hidle
  have hold : ∀ (j : Nat) (other : StoreCall Unit γ), ((link q i call.provider).modify i fun call =>
      { call with phase := .waiting }).calls[j]? = some other → j ≠ i → q.calls[j]? = some other :=
        fun j other hj hne =>
    ((hlink.others j hne).symm.trans ((hwait.others j hne).symm.trans hj))
  have hself : ∀ other, ((link q i call.provider).modify i fun call =>
      { call with phase := .waiting }).calls[i]? = some other → other = { linked with phase := .waiting } :=
    fun other hj => Option.some.inj (hj.symm.trans hwait.after)
  refine ⟨horderly, fun j other hj => ?_, fun j k other other' hj hk hlt hsame hpolled => ?_⟩
  · by_cases heq : j = i
    · subst heq
      rw [hself other hj]
      simp [linked]
    · exact h.scope j other (hold j other hj heq)
  · by_cases heqJ : j = i
    · subst heqJ
      rw [hself other hj]
      simp
    · have hj' := hold j other hj heqJ
      by_cases heqK : k = i
      · subst heqK
        rw [hself other' hk] at hsame
        exact hordered call hi j other hlt hj' hsame
      · exact h.polled j k other other' hj' (hold k other' hk heqK) hlt hsame hpolled

/-- A task takes its turn at the gate. -/
theorem inOrder_takeTurn (h : InOrder initial q) (hi : q.calls[i]? = some call) (hphase : call.phase = .waiting)
    (hreleased : q.isReleased call.previous = true) : InOrder initial (takeTurn q i call) := by
  have hscope := (h.scope i call hi).2 (by simp [hphase])
  have hidle : ¬ HasBegun call := by simp [HasBegun, hphase]
  have horderly := h.orderly.takeTurn hi hidle hscope (h.orderly.turn hi (by simp [hscope]) hreleased)
  revert horderly
  rw [takeTurn]
  split
  case isTrue => exact fun horderly => h.change (Table.changed_modify hi _) horderly rfl (by simp [hphase]) rfl
  case isFalse =>
    split <;> exact fun horderly => h.change (Table.changed_modify hi _) horderly rfl (by simp [hphase]) rfl

/-- A callback ends. -/
theorem inOrder_endCallback (h : InOrder initial q) (hi : q.calls[i]? = some call) (hphase : call.phase = .running)
    {callback : CallbackEnd γ} (hcallback : callback ≠ .cancelled) :
    InOrder initial (endCallback q i call callback) := by
  have horderly := h.orderly.endCallback hi hphase (CallbackEnd.settle_ne_cancelled hcallback _ _)
  revert horderly
  rw [endCallback]
  split <;> exact fun horderly => h.change (Table.changed_modify hi _) horderly rfl (by simp [hphase]) rfl

/-- A callback ends. -/
theorem act_callback {callback : CallbackEnd γ} (hact : act q call (.callback i callback) = some q') :
    callback ≠ .cancelled ∧ call.phase = .running ∧ q' = endCallback q i call callback := by
  simp only [act] at hact
  split at hact
  case h_1 => contradiction
  case h_2 hphase hnever => exact ⟨hnever, hphase, (Option.some.inj hact).symm⟩
  case h_3 => contradiction

/-- A task or a caller goes on, and tasks are polled in order. -/
theorem inOrder_act {event : GateEvent γ} (h : InOrder initial q) (hordered : PolledInOrder q event)
    (htarget : event.target = some i) (hi : q.calls[i]? = some call) (hact : act q call event = some q') :
    InOrder initial q' := by
  have hfits := h.orderly.fits i call hi
  cases event with
  | call provider operation hasSignal aborted => simp [act] at hact
  | abort j =>
    cases htarget
    simp only [act] at hact
    split at hact
    case isFalse => contradiction
    case isTrue =>
      cases hact
      refine h.same hi ⟨hfits.scope, hfits.idle, hfits.running, fun hphase => ?_⟩ rfl rfl rfl rfl rfl rfl rfl
      obtain ⟨outcome, hout, hown, hsilent⟩ := hfits.done hphase
      exact ⟨outcome, hout, hown.imp_left fun hown => ⟨hown.1, rfl⟩, hsilent⟩
  | poll j =>
    cases htarget
    simp only [act] at hact
    split at hact
    case h_2 => contradiction
    case h_1 hphase =>
      cases hact
      exact inOrder_poll h hi hphase hordered
  | acquire j =>
    cases htarget
    simp only [act] at hact
    split at hact
    case h_2 => contradiction
    case h_1 hphase =>
      split at hact
      case isFalse => contradiction
      case isTrue hreleased =>
        cases hact
        exact inOrder_takeTurn h hi hphase hreleased
  | callback j callback =>
    cases htarget
    obtain ⟨hnever, hphase, rfl⟩ := act_callback hact
    exact inOrder_endCallback h hi hphase hnever
  | unlock j =>
    cases htarget
    simp only [act] at hact
    split at hact
    case h_2 => contradiction
    case h_1 hphase =>
      cases hact
      have hchanged := Table.changed_modify hi fun call : StoreCall Unit γ => { call with released := true }
      refine h.change hchanged (h.orderly.release hchanged ?_ rfl (.inr hphase) rfl rfl rfl rfl rfl rfl rfl rfl)
        rfl Iff.rfl
        rfl
      exact ⟨hfits.scope, fun hidle => absurd (Or.inr hphase) hidle, by simp [hphase], hfits.done⟩
  | finish j =>
    cases htarget
    simp only [act] at hact
    split at hact
    case h_2 => contradiction
    case h_1 =>
      cases hact
      exact h.same hi ⟨hfits.scope, hfits.idle, hfits.running, hfits.done⟩ rfl rfl rfl rfl rfl rfl rfl
  | giveUp j | drop j =>
    cases htarget
    simp only [act] at hact
    split at hact
    case isFalse => contradiction
    case isTrue =>
      cases hact
      exact h.same hi ⟨hfits.scope, hfits.idle, hfits.running, hfits.done⟩ rfl rfl rfl rfl rfl rfl rfl

theorem step_of_target {event : GateEvent γ} (h : event.target = some i) :
    step q event = (q.calls[i]?).bind (act q · event) := by
  cases event with
  | call provider operation hasSignal aborted => simp [GateEvent.target] at h
  | abort j | poll j | acquire j | callback j _ | unlock j | finish j | giveUp j | drop j =>
    cases h
    rfl

/-- A step that polls in order keeps the invariant. -/
theorem inOrder_step {event : GateEvent γ} (h : InOrder initial q) (hordered : PolledInOrder q event)
    (hstep : step q event = some q') : InOrder initial q' := by
  cases htarget : event.target with
  | some i =>
    rw [step_of_target htarget] at hstep
    obtain ⟨call, hi, hact⟩ := Option.bind_eq_some_iff.mp hstep
    exact inOrder_act h hordered htarget hi hact
  | none =>
    cases event with
    | call provider operation hasSignal aborted =>
      simp only [step] at hstep
      split at hstep
      case isTrue =>
        cases hstep
        exact h
      case isFalse =>
        cases hstep
        refine ⟨h.orderly.append rfl rfl rfl rfl rfl rfl rfl, fun j other hj => ?_,
          fun j k other other' hj hk hlt hsame hpolled => ?_⟩
        · rcases Table.getElem?_concat_cases hj with hold | ⟨-, rfl⟩
          · exact h.scope j other hold
          · simp
        · rcases Table.getElem?_concat_cases hk with hk | ⟨-, rfl⟩
          · rcases Table.getElem?_concat_cases hj with hj | ⟨rfl, -⟩
            · exact h.polled j k other other' hj hk hlt hsame hpolled
            · have := (List.getElem?_eq_some_iff.mp hk).1
              omega
          · simp at hpolled
    | abort j | poll j | acquire j | callback j _ | unlock j | finish j | giveUp j | drop j =>
      simp [GateEvent.target] at htarget

/-- And so does a run of such steps. -/
theorem inOrder_run {es : List (GateEvent γ)} (hordered : Transition.Along step PolledInOrder { stored := initial } es)
    (h : run initial es = some q) : InOrder initial q :=
  Transition.run_preserves_along (fun _ _ _ hin hord hstep => inOrder_step hin hord hstep) h hordered inOrder_empty

/-! ## Progress -/

/-- An operation that has not ended is in its callback, can go on, or awaits
one before it of which this is true. -/
theorem InOrder.progress (h : InOrder initial q) : ∀ (i : Nat) (call : StoreCall Unit γ), q.calls[i]? = some call →
    call.outcome = none → ∃ (j : Nat) (call' : StoreCall Unit γ), j ≤ i ∧ q.calls[j]? = some call' ∧
      call'.provider = call.provider ∧ (call'.phase = .running ∨ CanStep q j) := by
  intro i
  induction i using Nat.strongRecOn with
  | ind i ih =>
    intro call hi hout
    have hfits := h.orderly.fits i call hi
    cases hphase : call.phase with
    | running => exact ⟨i, call, Nat.le_refl i, hi, rfl, .inl hphase⟩
    | done =>
      obtain ⟨outcome, hsome, -⟩ := hfits.done hphase
      simp [hout] at hsome
    | created =>
      by_cases hordered : PolledInOrder q (.poll i)
      · refine ⟨i, call, Nat.le_refl i, hi, rfl, .inr ⟨.poll i, by simp, hordered, ?_⟩⟩
        rw [step_of_target (i := i) rfl, hi]
        simp [act, hphase]
      · -- one before it has yet to be polled
        simp only [PolledInOrder, not_forall, Decidable.not_not] at hordered
        obtain ⟨call₀, hi₀, j, other, hlt, hj, hsame, hcreated⟩ := hordered
        rw [hi] at hi₀
        obtain rfl := Option.some.inj hi₀
        have hout' := ((h.orderly.fits j other hj).idle (by simp [HasBegun, hcreated])).2.1
        obtain ⟨k, call', hle, hk, hsame', hstep⟩ := ih j hlt other hj hout'
        exact ⟨k, call', by omega, hk, hsame'.trans hsame, hstep⟩
    | waiting =>
      by_cases hreleased : q.isReleased call.previous = true
      · refine ⟨i, call, Nat.le_refl i, hi, rfl, .inr ⟨.acquire i, by simp, trivial, ?_⟩⟩
        rw [step_of_target (i := i) rfl, hi]
        simp [act, hphase, hreleased]
      -- it waits behind an earlier one of its provider id
      cases hprevious : call.previous with
      | none => simp [hprevious, isReleased] at hreleased
      | some p =>
        have hscope := (h.scope i call hi).2 (by simp [hphase])
        have hcurrent : q.turnsView.current i = some p := by rw [turnsView_current hi, hprevious]
        obtain ⟨hlt, hscopeP⟩ := h.orderly.fifo.current_lt i call.provider p (by rw [turnsView_scope hi, hscope])
          hcurrent
        obtain ⟨before, hbefore, hscopeB⟩ := Option.bind_eq_some_iff.mp hscopeP
        have hprovider : before.provider = call.provider :=
          ((h.orderly.fits p before hbefore).scope call.provider hscopeB).symm
        cases hend : before.outcome with
        | none =>
          obtain ⟨j, call', hle, hj, hsame, hstep⟩ := ih p hlt before hbefore hend
          exact ⟨j, call', by omega, hj, hsame.trans hprovider, hstep⟩
        | some outcome =>
          have hdone := (h.orderly.fits p before hbefore).phase_of_outcome (by simp [hend])
          refine ⟨p, before, Nat.le_of_lt hlt, hbefore, hprovider, .inr ⟨.unlock p, by simp, trivial, ?_⟩⟩
          rw [step_of_target (i := p) rfl, hbefore]
          simp [act, hdone]

/-- What there is once the callback of a call has ended. -/
def settled (q : RustCredentialStore γ) (i : Nat) (callback : CallbackEnd γ) : Option (RustCredentialStore γ) :=
  step q (.callback i callback)

/-- What holds in every state of a run that polls in order. -/
theorem InOrder.guaranteed (h : InOrder initial q) : Guaranteed initial (CanStep q) (settled q) q := by
  refine h.orderly.guaranteed (fun i call callback q' hi _ hstep => ?_) h.progress
  rw [settled, step_of_target (i := i) rfl, hi] at hstep
  exact (act_callback hstep).2

end RustCredentialStore

/-! ## Both stores -/

/-- Two writes, the first of whose callers has a signal and is cancelled. -/
def cancelledWithSignal : List (StoreEvent Nat) :=
  [.call "p" .modify true, .stepQueued 0, .call "p" .modify false, .stepQueued 1, .cancel 0,
    .callback 0 (.value (some 1)), .stepTail 0, .stepQueued 1]

/-- Two writes, the first of whose callers is dropped. -/
def droppedCaller : List (GateEvent Nat) :=
  [.call "p" .modify false false, .call "p" .modify false false, .drop 0, .poll 0, .acquire 0, .poll 1,
    .callback 0 (.value (some 1)), .unlock 0, .acquire 1]

end MinionAgent
