import MinionAgent.Tools.MutationQueue

/-!
# MinionAgent.Tools.MutationOrder

What the mutation queue guarantees: bodies of one provider and key never
overlap, keys are resolved one call at a time, and bodies start in call order.

A call that is cancelled while it awaits an earlier registration settles its
own one, so the next call no longer waits for the earlier one
(`overtaken_after_cancel`, `exists_overtaking`).  While no such cancellation
arrives, all three hold (`serial_step`).
-/

namespace MinionAgent

namespace MutationQueue

open TwoStage

/-- The body of a call is running. -/
def IsRunning (phase : QueuePhase) : Prop := phase = .running

/-- The event cancels no call that awaits a registration that is not settled. -/
def Considerate (q : MutationQueue) : QueueEvent → Prop
  | .cancel i => ∀ call, q.members[i]? = some call → call.phase = .waiting →
      q.isDone Member.registered call.previous = true
  | _ => True

/-- What a call's phase says of its fields. -/
def Fits (call : QueueCall) : Prop :=
  match call.phase with
  | .waiting => call.begun = false ∧ call.registered = false ∧ call.scope = none ∧ call.released = false ∧
      call.started = false
  | .resolving => call.begun = true ∧ call.registered = false ∧ call.scope = none ∧ call.released = false ∧
      call.started = false
  | .queued => call.begun = true ∧ call.registered = true ∧ call.scope.isSome ∧ call.released = false ∧
      call.started = false
  | .running => call.begun = true ∧ call.registered = true ∧ call.scope.isSome ∧ call.released = false ∧
      call.started = true
  | .leaving => call.begun = true ∧ call.registered = true ∧ call.scope.isSome ∧ call.released = false ∧
      call.started = false
  | .finished => call.registered = true ∧ (call.scope.isSome → call.begun = true)

/-! ## Operations -/

variable {q q' : MutationQueue} {i : Nat} {call : QueueCall}

/-- A registration settles without an entry. -/
theorem serial_abandon (h : Serial Fits q) (hi : q.members[i]? = some call)
    (hphase : call.phase = .waiting ∨ call.phase = .resolving)
    (hdone : call.phase = .waiting → q.isDone Member.registered call.previous = true) : Serial Fits (abandon q i) := by
  have hfits := h.fits i call hi
  have hchanged := changed_modify hi (f := fun call => { call with phase := .finished, registered := true }) rfl
  refine h.step hchanged ⟨rfl, fun hsome => ?_⟩ id (fun _ => rfl) (fun _ => ?_) rfl rfl rfl rfl rfl rfl rfl
  · exact h.queued i call hi hsome
  · rcases hphase with hwaiting | hresolving
    · exact .inr fun j n hj hlt => h.earlier_settled hi (hdone hwaiting) hj hlt
    · rw [Fits, hresolving] at hfits
      exact .inl (.inl hfits.1)

/-- A call whose turn it is to register begins to resolve its key. -/
theorem serial_wake (h : Serial Fits q) (hi : q.members[i]? = some call) (hphase : call.phase = .waiting)
    (hdone : q.isDone Member.registered call.previous = true) :
    Serial Fits (q.modify i fun call => { call with phase := .resolving, begun := true }) := by
  have hfits := h.fits i call hi
  rw [Fits, hphase] at hfits
  have hchanged := changed_modify hi (f := fun call => { call with phase := .resolving, begun := true }) rfl
  refine h.step hchanged ⟨rfl, hfits.2⟩ (fun _ => rfl) id (fun _ => ?_) rfl rfl rfl rfl rfl rfl rfl
  exact .inr fun j n hj hlt => h.earlier_settled hi hdone hj hlt

/-- A call that is cancelled while queued waits to release its entry. -/
theorem serial_leave (h : Serial Fits q) (hi : q.members[i]? = some call) (hphase : call.phase = .queued) :
    Serial Fits (q.modify i fun call => { call with phase := .leaving }) := by
  have hfits := h.fits i call hi
  rw [Fits, hphase] at hfits
  have hchanged := changed_modify hi (f := fun call => { call with phase := .leaving }) rfl
  exact h.step hchanged hfits id id .inl rfl rfl rfl rfl rfl rfl rfl

/-- A body starts at its turn. -/
theorem serial_begin (h : Serial Fits q) (hi : q.members[i]? = some call) (hphase : call.phase = .queued)
    (hdone : q.isDone Member.released call.current = true) : Serial Fits (begin q i) := by
  have hfits := h.fits i call hi
  rw [Fits, hphase] at hfits
  obtain ⟨hbegun, hregistered, hsome, hreleased, hstarted⟩ := hfits
  have hmodified := changed_modify hi (f := fun call => { call with phase := .running, started := true }) rfl
  exact h.begin (hmodified.congr rfl) ⟨hbegun, hregistered, hsome, hreleased, rfl⟩ rfl rfl rfl rfl rfl rfl hstarted rfl
    rfl rfl hsome hreleased (h.turn hi hsome hdone)

/-- An entry is released at its turn. -/
theorem serial_release (h : Serial Fits q) (hi : q.members[i]? = some call)
    (hregistered : call.registered = true) {scope : QueueScope} (hturn : q.turns.Turn i) :
    Serial Fits (release q i scope) := by
  have hchanged := changed_modify hi (f := fun call => { call with phase := .finished, released := true }) rfl
  -- first the future is done, then the entry goes that is still the last one
  have hreleased : Serial Fits (setReleased q i) := by
    refine h.release hchanged ⟨hregistered, fun hsome => ?_⟩ rfl rfl rfl rfl rfl rfl rfl rfl rfl hturn
    exact h.queued i call hi hsome
  rw [release]
  split
  case isTrue hlast =>
    refine hreleased.clear hchanged.after rfl hlast rfl rfl rfl ?_ fun k hk => ?_
    · exact Function.update_self ..
    · exact Function.update_of_ne hk ..
  case isFalse => exact hreleased

/-- A resolved key queues the entry and settles the registration. -/
theorem serial_enqueue (h : Serial Fits q) (hi : q.members[i]? = some call) (hphase : call.phase = .resolving)
    (scope : QueueScope) : Serial Fits (enqueue q i scope) := by
  have hfits := h.fits i call hi
  rw [Fits, hphase] at hfits
  obtain ⟨hbegun, hregistered, hnone, hreleased, hstarted⟩ := hfits
  have hmodified := changed_modify hi (f := fun call =>
    { call with phase := .queued, registered := true, scope := some scope, current := q.tails scope }) rfl
  refine h.enqueue (k := scope) (hmodified.congr rfl) ⟨hbegun, rfl, rfl, hreleased, hstarted⟩ hbegun hregistered hnone
    hreleased hstarted hbegun rfl rfl rfl hreleased hstarted ?_ (fun k hk => ?_) rfl
  · exact Function.update_self ..
  · exact Function.update_of_ne hk ..

/-- A queued call goes on to its body if it can. -/
theorem serial_proceed (h : Serial Fits q) (hi : q.members[i]? = some call) (hphase : call.phase = .queued) :
    Serial Fits (proceed q i call.current) := by
  rw [proceed]
  split
  case isTrue hdone => exact serial_begin h hi hphase hdone
  case isFalse => exact h

/-- A call registers behind all others. -/
theorem serial_call (h : Serial Fits q) (provider : Nat) (path : String) :
    Serial Fits (MutationQueue.call q provider path) := by
  refine h.enter ?_ rfl rfl rfl rfl rfl rfl id rfl rfl rfl rfl
  cases hdone : q.isDone Member.registered q.registration with
  | true => simp [Fits]
  | false => simp [Fits]

/-! ## Runs -/

/-- A body that runs has taken its turn. -/
theorem turn_of_running (h : Serial Fits q) (hi : q.members[i]? = some call) (hphase : call.phase = .running) :
    q.turns.Turn i := by
  have hfits := h.fits i call hi
  rw [Fits, hphase] at hfits
  have hmem : i ∈ q.starts := (h.started i call hi).mp hfits.2.2.2.2
  exact (h.logged.turn i hmem).2

theorem registered_of_phase (h : Fits call)
    (hphase : call.phase = .queued ∨ call.phase = .running ∨ call.phase = .leaving) :
    call.registered = true ∧ call.scope.isSome := by
  rcases hphase with hphase | hphase | hphase <;> rw [Fits, hphase] at h <;> exact ⟨h.2.1, h.2.2.1⟩

/-- A call goes on, or is cancelled with consideration. -/
theorem serial_resume {event : QueueEvent} (h : Serial Fits q) (hconsiderate : Considerate q event)
    (htarget : event.target = some i) (hi : q.members[i]? = some call) (hresume : resume q call event = some q') :
    Serial Fits q' := by
  have hregistered := registered_of_phase (h.fits i call hi)
  cases event with
  | call provider path => simp [resume] at hresume
  | wake j =>
    cases htarget
    simp only [resume] at hresume
    split at hresume
    case isFalse => contradiction
    case isTrue hguard =>
      cases hresume
      exact serial_wake h hi hguard.1 hguard.2
  | resolve j canonical absolute =>
    cases htarget
    simp only [resume] at hresume
    split at hresume
    case isFalse => contradiction
    case isTrue hphase =>
      split at hresume
      case h_1 =>
        cases hresume
        exact serial_abandon h hi (.inr hphase) (by simp [hphase])
      case h_2 key _ =>
        cases hresume
        have henqueued := serial_enqueue h hi hphase (call.data.provider, key)
        have hqueued : (enqueue q i (call.data.provider, key)).members[i]? = some
            { call with
              phase := .queued
              registered := true
              scope := some (call.data.provider, key)
              current := q.tails (call.data.provider, key) } := by
          simp [enqueue, TwoStage.modify, hi]
        exact serial_proceed henqueued hqueued rfl
  | start j =>
    cases htarget
    simp only [resume] at hresume
    split at hresume
    case isFalse => contradiction
    case isTrue hguard =>
      cases hresume
      exact serial_begin h hi hguard.1 hguard.2
  | finish j =>
    cases htarget
    simp only [resume] at hresume
    split at hresume
    case h_2 => contradiction
    case h_1 scope hphase _ =>
      cases hresume
      exact serial_release h hi (hregistered (.inr (.inl hphase))).1 (turn_of_running h hi hphase)
  | release j =>
    cases htarget
    simp only [resume] at hresume
    split at hresume
    case h_2 => contradiction
    case h_1 scope hphase _ =>
      obtain ⟨hreg, hsome⟩ := hregistered (.inr (.inr hphase))
      split at hresume
      case isFalse => contradiction
      case isTrue hdone =>
        cases hresume
        exact serial_release h hi hreg (h.turn hi hsome hdone)
  | cancel j =>
    cases htarget
    simp only [resume] at hresume
    split at hresume
    case h_1 hphase =>
      cases hresume
      exact serial_abandon h hi (.inl hphase) fun hwaiting => hconsiderate call hi hwaiting
    case h_2 hphase =>
      cases hresume
      exact serial_abandon h hi (.inr hphase) (by simp [hphase])
    case h_3 scope hphase _ =>
      obtain ⟨hreg, hsome⟩ := hregistered (.inl hphase)
      split at hresume
      case isTrue hdone =>
        cases hresume
        exact serial_release h hi hreg (h.turn hi hsome hdone)
      case isFalse =>
        -- its release waits for the entry before, which is how order is kept here
        cases hresume
        exact serial_leave h hi hphase
    case h_4 => contradiction

theorem step_of_target {event : QueueEvent} (h : event.target = some i) :
    step q event = (q.members[i]?).bind (resume q · event) := by
  cases event with
  | call provider path => simp [QueueEvent.target] at h
  | wake j | resolve j _ _ | start j | finish j | release j | cancel j =>
    cases h
    rfl

/-- A considerate step keeps the invariant. -/
theorem serial_step {event : QueueEvent} (h : Serial Fits q) (hconsiderate : Considerate q event)
    (hstep : step q event = some q') : Serial Fits q' := by
  cases htarget : event.target with
  | none =>
    cases event with
    | call provider path =>
      cases hstep
      exact serial_call h provider path
    | wake j | resolve j _ _ | start j | finish j | release j | cancel j => simp [QueueEvent.target] at htarget
  | some i =>
    rw [step_of_target htarget] at hstep
    obtain ⟨call, hi, hresume⟩ := Option.bind_eq_some_iff.mp hstep
    exact serial_resume h hconsiderate htarget hi hresume

/-- What the invariant guarantees of the bodies. -/
theorem serialized_of_serial (h : Serial Fits q) : Serialized IsRunning q :=
  h.serialized fun call hfits hrunning => by
    rw [IsRunning] at hrunning
    rw [Fits, hrunning] at hfits
    exact ⟨hfits.2.2.2.2, hfits.2.2.2.1⟩

/-! ## Overtaking -/

/-- A call that has begun before an earlier registration settled has overtaken
it. -/
theorem not_serialized_of_overtaken {i j : Nat} {call call' : QueueCall} (hi : q.members[i]? = some call)
    (hj : q.members[j]? = some call') (hlt : i < j) (hpending : call.registered = false)
    (hbegun : call'.begun = true) : ¬ Serialized IsRunning q := by
  intro h
  have hregistered := h.registeredInOrder i j call call' hi hj hlt hbegun
  simp [hpending] at hregistered

/-- After any other cancellation, the next call can begin at once. -/
theorem exists_overtaking (h : Serial Fits q) (hinconsiderate : ¬ Considerate q (.cancel i))
    (hstep : step q (.cancel i) = some q') : ∃ event q'', step q' event = some q'' ∧ ¬ Serialized IsRunning q'' := by
  simp only [Considerate, not_forall, Bool.not_eq_true] at hinconsiderate
  obtain ⟨call, hi, hphase, hpending⟩ := hinconsiderate
  have hfits := h.fits i call hi
  rw [Fits, hphase] at hfits
  -- it awaits the call before it, whose registration is pending
  obtain ⟨p, hp⟩ : ∃ p, call.previous = some p := by
    cases hprevious : call.previous with
    | none => simp [hprevious, isDone] at hpending
    | some p => exact ⟨p, rfl⟩
  have hbefore := h.previous i call hi p hp
  have hlength := (List.getElem?_eq_some_iff.mp hi).1
  obtain ⟨earlier, hearlier⟩ : ∃ earlier, q.members[p]? = some earlier := ⟨_, List.getElem?_eq_getElem (by omega)⟩
  rw [hp, isDone_some hearlier] at hpending
  -- the cancellation settles its own registration
  obtain rfl : q' = abandon q i := by
    rw [step_of_target (i := i) rfl, hi] at hstep
    simp only [Option.bind_some, resume, hphase] at hstep
    exact (Option.some.inj hstep).symm
  have hchanged := changed_modify hi (f := fun call => { call with phase := .finished, registered := true }) rfl
  have hearlier' : (abandon q i).members[p]? = some earlier := by
    rw [← hearlier]
    exact hchanged.others p (by omega)
  have hsettled : (abandon q i).isDone Member.registered (some i) = true := isDone_some hchanged.after
  by_cases hlast : i + 1 = q.members.length
  case pos =>
    -- the next call is a new one
    have hregistration : q.registration = some i := by
      cases hreg : q.registration with
      | none =>
        have := h.idle hreg i call hi
        simp [hfits.2.1] at this
      | some r =>
        have := h.latest r hreg
        rw [show r = i by omega]
    refine ⟨.call 0 "", _, rfl, ?_⟩
    have hlengthAbandon : (abandon q i).members.length = q.members.length := hchanged.length
    have hearlier'' : (MutationQueue.call (abandon q i) 0 "").members[p]? = some earlier :=
      (List.getElem?_append_left (by omega)).trans hearlier'
    refine not_serialized_of_overtaken hearlier'' List.getElem?_concat_length (by omega) hpending ?_
    have : (abandon q i).registration = some i := hregistration
    rw [this]
    exact hsettled
  case neg =>
    -- the next call awaits this one
    obtain ⟨next, hnext⟩ : ∃ next, q.members[i + 1]? = some next := ⟨_, List.getElem?_eq_getElem (by omega)⟩
    have hidle : next.begun ≠ true ∧ next.registered ≠ true := by
      constructor <;> intro hgrown
      · have := h.settled i (i + 1) call next hi hnext (by omega) (.inl hgrown)
        simp [hfits.2.1] at this
      · have := h.settled i (i + 1) call next hi hnext (by omega) (.inr hgrown)
        simp [hfits.2.1] at this
    have hnextFits := h.fits (i + 1) next hnext
    have hwaiting : next.phase = .waiting := by
      cases hnextPhase : next.phase with
      | waiting => rfl
      | resolving | queued | running | leaving | finished =>
        rw [Fits, hnextPhase] at hnextFits
        simp [hnextFits] at hidle
    have hprevious : next.previous = some i := by
      cases hnextPrevious : next.previous with
      | none =>
        have := h.first (i + 1) i next call hnext hi (by omega) hnextPrevious
        simp [hfits.2.1] at this
      | some r =>
        have := h.previous (i + 1) next hnext r hnextPrevious
        rw [show r = i by omega]
    have hnext' : (abandon q i).members[i + 1]? = some next := by
      rw [← hnext]
      exact hchanged.others (i + 1) (by omega)
    have hbegun := changed_modify hnext' (f := fun call => { call with phase := .resolving, begun := true }) rfl
    have hearlier'' := (hbegun.others p (by omega)).trans hearlier'
    refine ⟨.wake (i + 1), _, ?_, not_serialized_of_overtaken hearlier'' hbegun.after (by omega) hpending rfl⟩
    rw [step_of_target (i := i + 1) rfl, hnext']
    simp only [Option.bind_some, resume]
    exact if_pos ⟨hwaiting, by rw [hprevious]; exact hsettled⟩

/-- Three calls for one file: the second is cancelled while it awaits the first
one's registration, and the third one's body runs before that of the first. -/
theorem overtaken_after_cancel :
    ∃ q, run [.call 0 "a", .call 0 "a", .call 0 "a", .cancel 1, .wake 2, .resolve 2 (.ok "/a") (.ok "/a"), .finish 2,
        .resolve 0 (.ok "/a") (.ok "/a")] = some q ∧
      q.starts = [2, 0] ∧ (∀ i ∈ q.starts, (q.members[i]?).bind Member.scope = some (0, "/a")) ∧
      ¬ Serialized IsRunning q := by
  refine ⟨_, rfl, rfl, by decide, fun h => ?_⟩
  have hordered := h.startedInOrder
  revert hordered
  decide

end MutationQueue

end MinionAgent
