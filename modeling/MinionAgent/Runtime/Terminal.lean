import MinionAgent.Runtime.Fiber

/-!
# MinionAgent.Runtime.Terminal

When `DISPOSED` is the end of a fiber.

A `load` that awaits the plugin body, or any call that is unwinding, goes on
when the fiber is `DISPOSED` already, and sets the state it was called for.
`disposed_terminal_iff` says that this is all that can happen.
-/

namespace MinionAgent

/-- A call that has nothing left to do to its fiber but to dispose of it: it
has returned, or it is a `dispose` with no disposer left to start. -/
def Call.Over (d : Disposables) : Call → Prop
  | .body => False
  | .unwinding list target => target = .disposed ∧ d.Drained list
  | .returned _ => True

namespace Fiber

/-- From now on the fiber is `DISPOSED` and has no live effect. -/
def Terminal (f : Fiber) : Prop :=
  ∀ (events : List FiberEvent) (f' : Fiber), Transition.run step f events = some f' →
    f'.state = .disposed ∧ ∀ e, f'.disposables.isLive e = false

/-- A fiber of which only the ends of `dispose` calls are left. -/
structure Ended (f : Fiber) : Prop where
  state : f.state = .disposed
  settled : ∀ e, f.disposables.isLive e = false
  calls : ∀ call ∈ f.calls, (∃ raised, call = .returned raised) ∨ ∃ list, call = .unwinding list .disposed

theorem Ended.called {f : Fiber} (h : Ended f) (raised : Bool) : Ended (f.called (.returned raised)) where
  state := h.state
  settled := h.settled
  calls := by
    intro call hcall
    rcases List.mem_append.mp hcall with hold | hnew
    · exact h.calls call hold
    · exact .inl ⟨raised, List.mem_singleton.mp hnew⟩

/-- Without live effects `dispose_all` starts nothing. -/
theorem isLive_resume {d : Disposables} (h : ∀ e, d.isLive e = false) (list : Nat) (raised : Bool) (e : Nat) :
    (d.resume list raised).isLive e = false := by
  rw [Disposables.resume]
  split
  · next below failed hrunning =>
    rw [Disposables.drained_of_not_isLive h list below failed hrunning]
    exact h e
  · exact h e

theorem ended_step {f f' : Fiber} {event : FiberEvent} (h : Ended f) (hstep : step f event = some f') : Ended f' := by
  have hbody (call : Nat) : f.calls[call]? ≠ some .body := by
    intro hcall
    rcases h.calls _ (List.mem_of_getElem? hcall) with ⟨raised, heq⟩ | ⟨list, heq⟩ <;> cases heq
  cases event with
  | load =>
    rw [step, h.state, if_neg FiberState.noConfusion] at hstep
    cases hstep
    exact h.called false
  | bodyReturned call valid =>
    rw [step, if_neg (hbody call)] at hstep
    cases hstep
  | bodyRaised call =>
    rw [step, if_neg (hbody call)] at hstep
    cases hstep
  | unload =>
    rw [step, h.state, if_neg (by decide)] at hstep
    cases hstep
    exact h.called false
  | dispose =>
    rw [step, if_pos h.state] at hstep
    cases hstep
    exact h.called false
  | effect =>
    rw [step, h.state, if_neg (by decide)] at hstep
    cases hstep
    exact h
  | handle e =>
    rw [step] at hstep
    split at hstep
    · cases hstep
      cases hhandle : f.disposables.handle? e with
      | none => exact h
      | some d' =>
        obtain ⟨-, -, -, hlive⟩ := Disposables.handle?_frame hhandle
        exact ⟨h.state, fun x => by rw [Option.getD_some, hlive, h.settled]; rfl, h.calls⟩
    · cases hstep
  | disposerEnded call raised =>
    rw [step] at hstep
    split at hstep
    · next list target hcall =>
      cases hstep
      have htarget : target = .disposed := by
        rcases h.calls _ (List.mem_of_getElem? hcall) with ⟨raised, heq⟩ | ⟨list, heq⟩ <;> cases heq
        rfl
      subst htarget
      have hlive := isLive_resume h.settled list raised
      have hcalls {next : Call} (hnext : (∃ raised, next = .returned raised) ∨ ∃ list,
        next = .unwinding list .disposed) :
          ∀ c ∈ f.calls.set call next, (∃ raised, c = .returned raised) ∨ ∃ list, c = .unwinding list .disposed := by
        intro c hc
        rcases List.mem_or_eq_of_mem_set hc with hold | rfl
        · exact h.calls c hold
        · exact hnext
      rw [awaitList]
      split
      · exact ⟨rfl, hlive, hcalls (.inl ⟨_, rfl⟩)⟩
      · exact ⟨h.state, hlive, hcalls (.inr ⟨list, rfl⟩)⟩
    · cases hstep

/-- A fiber reached without effects created during an unwind has no live
effect once it is `DISPOSED` and its calls are over. -/
theorem ended_of_over {f : Fiber} (hsound : Sound f) (hkept : Kept f) (hstate : f.state = .disposed)
    (hover : ∀ call ∈ f.calls, call.Over f.disposables) : Ended f where
  state := hstate
  settled := by
    intro e
    by_contra hlive
    rw [Bool.not_eq_false] at hlive
    rcases hkept.owned e hlive with ⟨list, slot, below, failed, he, hrunning, hlt⟩ | hwaits
    · have hcount := hsound.disposables.counted e list slot he
      obtain ⟨c, target, hc⟩ := hsound.waiting.driven list below failed hcount hrunning
      have hdrained := (hover _ (List.mem_of_getElem? hc)).2
      rw [hsound.disposables.not_isLive_of_drained he hrunning hlt hdrained] at hlive
      cases hlive
    · have hactive := (hkept.apart e hlive hwaits).1
      rw [hstate] at hactive
      cases hactive
  calls := by
    intro call hcall
    cases call with
    | body => exact absurd (hover .body hcall) id
    | unwinding list target =>
      obtain ⟨rfl, -⟩ := hover _ hcall
      exact .inr ⟨list, rfl⟩
    | returned raised => exact .inl ⟨raised, rfl⟩

/-- A call that is not over is heard of again. -/
theorem over_of_terminal {f : Fiber} (hsound : Sound f) (h : Terminal f) :
    ∀ call ∈ f.calls, call.Over f.disposables := by
  intro call hmem
  obtain ⟨c, hc⟩ := List.mem_iff_getElem?.mp hmem
  have hlive : ∀ e, f.disposables.isLive e = false := (h [] f rfl).2
  cases call with
  | body =>
    have hstep : step f (.bodyReturned c true)
        = some { f with state := .active, calls := f.calls.set c (.returned false) } := by
      rw [step, if_pos hc, if_pos rfl]
    have hstate := (h [.bodyReturned c true] _ (Transition.run_cons.mpr ⟨_, hstep, rfl⟩)).1
    cases hstate
  | unwinding list target =>
    refine ⟨?_, Disposables.drained_of_not_isLive hlive list⟩
    obtain ⟨-, below, failed, hrunning⟩ := hsound.waiting.awaits c list target hc
    have hstep : step f (.disposerEnded c false)
        = some ({ f with disposables := f.disposables.resume list false }.awaitList c list target) := by
      rw [step, hc]
    have hresume : ((f.disposables.resume list false).lists list).progress = .done (failed || false) := by
      rw [Disposables.resume, hrunning]
      simp only [Disposables.drained_of_not_isLive hlive list below failed hrunning, Disposables.lists_setList_self]
    have hstate := (h [.disposerEnded c false] _ (Transition.run_cons.mpr ⟨_, hstep, rfl⟩)).1
    rw [awaitList, hresume] at hstate
    exact hstate
  | returned raised => exact trivial

/-- A `DISPOSED` fiber on which no effect was created during an unwind stays
as it is, without live effects, if and only if no `load` or `unload` is under
way and no `dispose` has a disposer left to start. -/
theorem disposed_terminal_iff {f : Fiber} {events : List FiberEvent}
    (hrun : Transition.run step {} events = some f) (hquiet : Transition.Along step Quiet {} events)
    (hstate : f.state = .disposed) : Terminal f ↔ ∀ call ∈ f.calls, call.Over f.disposables := by
  have hsound := sound_run hrun
  constructor
  · exact over_of_terminal hsound
  · intro hover events' f' hrun'
    have hended := Transition.run_preserves (fun _ _ _ h => ended_step h) hrun'
      (ended_of_over hsound (kept_run hrun hquiet) hstate hover)
    exact ⟨hended.state, hended.settled⟩

/-- A fiber with one effect is loaded and disposed. -/
theorem disposed_terminal_after_unwind :
    ∃ f, Transition.run step {} [.load, .effect, .bodyReturned 0 true, .dispose, .disposerEnded 1 false] = some f ∧
      f.state = .disposed ∧ Terminal f := by
  obtain ⟨f, hrun⟩ : ∃ f, Transition.run step {}
      [.load, .effect, .bodyReturned 0 true, .dispose, .disposerEnded 1 false] = some f := ⟨_, rfl⟩
  have hcalls : f.state = .disposed ∧ f.calls = [.returned false, .returned false] := by
    cases hrun
    decide
  have hquiet : Transition.Along step Quiet {}
      [.load, .effect, .bodyReturned 0 true, .dispose, .disposerEnded 1 false] := by
    refine ⟨FiberEvent.noConfusion, ?_, FiberEvent.noConfusion, FiberEvent.noConfusion, FiberEvent.noConfusion, trivial⟩
    rintro - - ⟨c, list, target, hc⟩
    have hbody : [Call.body][c]? = some (.unwinding list target) := hc
    rw [List.getElem?_singleton] at hbody
    split at hbody <;> cases hbody
  refine ⟨f, hrun, hcalls.1, (disposed_terminal_iff hrun hquiet hcalls.1).mpr fun call hcall => ?_⟩
  rw [hcalls.2] at hcall
  simp only [List.mem_cons, List.not_mem_nil, or_false, or_self] at hcall
  subst hcall
  exact trivial

/-- `dispose` during the plugin body: the body returns and the fiber is
`ACTIVE`. -/
theorem disposed_during_load_not_terminal :
    ¬ ∀ (events : List FiberEvent) (f : Fiber), Transition.run step {} events = some f → f.state = .disposed →
      Terminal f := by
  intro h
  have hactive := (h [.load, .dispose] _ rfl rfl [.bodyReturned 0 true] _ rfl).1
  cases hactive

end Fiber

end MinionAgent
