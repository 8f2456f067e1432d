import MinionAgent.Execution.Settlement
import MinionAgent.Library.Table
import Mathlib.Tactic.SplitIfs

/-!
# MinionAgent.Execution.SettlementRuns

What `wait` and `terminate` give in every run of a process spawned in Python.

* `Python.settles` — one result, which is the aborted error exactly when the
  watcher was first;
* `Python.releases_iff` — behind a `terminate` that begins once a `wait` has
  returned, the piped streams end, unless an earlier call has left one open.
-/

namespace MinionAgent.Subprocess

open Transition

/-! ## Handles -/

/-- The piped streams have a closed end. -/
def Handles.Shut (h : Handles) : Prop := ∀ pipe s, h.get pipe = some s → s.Shut

/-- The piped streams end. -/
def Handles.End (h : Handles) : Prop := ∀ pipe s, h.get pipe = some s → s.Ends

theorem Handles.end_iff (h : Handles) : h.End ↔ h.Shut :=
  forall₂_congr fun _ s => imp_congr_right fun _ => ReadStream.ends_iff s

theorem Handles.get_onPipe (h : Handles) (pipe other : Pipe) (f : ReadStream → ReadStream) :
    (h.onPipe pipe f).get other = if other = pipe then (h.get other).map f else h.get other := by
  cases pipe <;> cases other <;> rfl

@[simp] theorem Handles.get_closeStdin (h : Handles) (pipe : Pipe) : h.closeStdin.get pipe = h.get pipe := by
  cases pipe <;> rfl

/-- A stream of a pipe that something happened to. -/
theorem Handles.get_onPipe_cases {h : Handles} {pipe other : Pipe} {f : ReadStream → ReadStream} {s : ReadStream}
    (hs : (h.onPipe pipe f).get other = some s) :
    other = pipe ∧ (∃ old, h.get other = some old ∧ s = f old) ∨ other ≠ pipe ∧ h.get other = some s := by
  rw [get_onPipe] at hs
  split_ifs at hs with heq
  · obtain ⟨old, hold, rfl⟩ := Option.map_eq_some_iff.mp hs
    exact Or.inl ⟨heq, old, hold, rfl⟩
  · exact Or.inr ⟨heq, hs⟩

theorem Handles.Shut.onPipe {h : Handles} (hshut : h.Shut) {f : ReadStream → ReadStream}
    (hf : ∀ s, s.Shut → (f s).Shut) (pipe : Pipe) : (h.onPipe pipe f).Shut := by
  intro other s hs
  rcases get_onPipe_cases hs with ⟨-, old, hold, rfl⟩ | ⟨-, hold⟩
  · exact hf old (hshut other old hold)
  · exact hshut other s hold

theorem ReadStream.shut_release (s : ReadStream) : s.release.Shut := Or.inr (Or.inl rfl)

theorem ReadStream.shut_close (s : ReadStream) : s.close.Shut := Or.inl rfl

namespace Python

/-! ## Python: the result -/

/-- The watcher saw the signal aborted before the exit was seen and before any
`terminate` was called. -/
def SignalFirst : List Event → Prop :=
  Happens .poll fun before => .abort ∈ before ∧ (∀ c, .exit c ∉ before) ∧ .callTerminate ∉ before

theorem signalFirst_concat (es : List Event) (e : Event) :
    SignalFirst (es ++ [e]) ↔
      SignalFirst es ∨ e = .poll ∧ .abort ∈ es ∧ (∀ c, .exit c ∉ es) ∧ .callTerminate ∉ es :=
  happens_concat _ _ es e

/-- What the events so far say of the signal, the exit and the cause. -/
structure Accounted (es : List Event) (p : Process) : Prop where
  aborted : p.aborted = true ↔ .abort ∈ es
  running : p.returncode = none ↔ ∀ c, .exit c ∉ es
  exited : ∀ c, p.returncode = some c → .exit c ∈ es
  called : p.terminateCalled = true ↔ .callTerminate ∈ es
  signal : p.killCause = .signal ↔ SignalFirst es
  claimed : p.killCause = .none → .callTerminate ∉ es
  explicit : p.killCause = .explicit → .callTerminate ∈ es

theorem accounted_spawned (watching : Bool) (handles : Handles) : Accounted [] (spawned watching handles) where
  aborted := by simp [spawned]
  running := by simp [spawned]
  exited := by simp [spawned]
  called := by simp [spawned]
  signal := by simp [spawned, SignalFirst, not_happens_nil]
  claimed := by simp
  explicit := by simp [spawned]

/-- The signal, the exit and the cause stay. -/
structure Same (p p' : Process) : Prop where
  aborted : p'.aborted = p.aborted
  returncode : p'.returncode = p.returncode
  killCause : p'.killCause = p.killCause
  terminateCalled : p'.terminateCalled = p.terminateCalled

variable {es : List Event} {p p' : Process} {i : ℕ}

/-- What the events say does not change where the state it is about does not,
and the event is another. -/
theorem Accounted.keep (h : Accounted es p) (hsame : Same p p') {e : Event} (habort : e ≠ .abort)
    (hexit : ∀ c, e ≠ .exit c) (hpoll : e ≠ .poll) (hterminate : e ≠ .callTerminate) : Accounted (es ++ [e]) p' where
  aborted := by rw [hsame.aborted, h.aborted]; simp [habort.symm]
  running := by rw [hsame.returncode, h.running]; simp [fun c => (hexit c).symm]
  exited c hc := List.mem_append_left _ (h.exited c (hsame.returncode ▸ hc))
  called := by rw [hsame.terminateCalled, h.called]; simp [hterminate.symm]
  signal := by rw [hsame.killCause, h.signal, signalFirst_concat]; simp [hpoll]
  claimed hc := by simpa [hterminate.symm] using h.claimed (hsame.killCause ▸ hc)
  explicit hc := List.mem_append_left _ (h.explicit (hsame.killCause ▸ hc))

theorem Accounted.abort (h : Accounted es p) : Accounted (es ++ [.abort]) { p with aborted := true } where
  aborted := by simp
  running := by simpa using h.running
  exited c hc := List.mem_append_left _ (h.exited c hc)
  called := by simpa using h.called
  signal := by rw [h.signal, signalFirst_concat]; simp
  claimed hc := by simpa using h.claimed hc
  explicit hc := List.mem_append_left _ (h.explicit hc)

theorem Accounted.exit (h : Accounted es p) (returncode : ℤ) :
    Accounted (es ++ [.exit returncode]) { p with returncode := some returncode } where
  aborted := by simpa using h.aborted
  running := iff_of_false (by simp) fun hall => hall returncode (by simp)
  exited c hc := by
    cases hc
    simp
  called := by simpa using h.called
  signal := by rw [h.signal, signalFirst_concat]; simp
  claimed hc := by simpa using h.claimed hc
  explicit hc := List.mem_append_left _ (h.explicit hc)

/-- The watcher claims the cause when it sees the signal, the process runs and nobody has claimed it. -/
theorem Accounted.poll (h : Accounted es p) : Accounted (es ++ [.poll]) p.poll := by
  have hkeep : ∀ p' : Process, p'.aborted = p.aborted → p'.returncode = p.returncode →
      p'.terminateCalled = p.terminateCalled → (p'.killCause = .signal ↔ SignalFirst (es ++ [.poll])) →
      (p'.killCause = .none → p.killCause = .none) → (p'.killCause = .explicit → p.killCause = .explicit) →
      Accounted (es ++ [.poll]) p' := by
    intro p' haborted hreturncode hcalled hsignal hnone hexplicit
    exact {
      aborted := by rw [haborted, h.aborted]; simp
      running := by rw [hreturncode, h.running]; simp
      exited := fun c hc => List.mem_append_left _ (h.exited c (hreturncode ▸ hc))
      called := by rw [hcalled, h.called]; simp
      signal := hsignal
      claimed := fun hc => by simpa using h.claimed (hnone hc)
      explicit := fun hc => List.mem_append_left _ (h.explicit (hexplicit hc)) }
  unfold Process.poll
  split_ifs with hrunning haborted
  · refine hkeep _ rfl rfl rfl ?_ ?_ ?_
    · rw [signalFirst_concat, ← h.signal]
      have hseen : (Event.poll = .poll ∧ .abort ∈ es ∧ (∀ c, .exit c ∉ es) ∧ .callTerminate ∉ es) ↔
          .callTerminate ∉ es :=
        ⟨fun hall => hall.2.2.2, fun hnot => ⟨rfl, h.aborted.mp haborted, h.running.mp hrunning, hnot⟩⟩
      rw [hseen]
      show (if p.killCause = .none then KillCause.signal else p.killCause) = .signal ↔ _
      cases hcause : p.killCause with
      | none => simp [h.claimed hcause]
      | signal => simp
      | explicit => simp [h.explicit hcause]
    · show (if p.killCause = .none then KillCause.signal else p.killCause) = .none → _
      split_ifs with hnone
      · exact fun hfalse => by cases hfalse
      · exact id
    · show (if p.killCause = .none then KillCause.signal else p.killCause) = .explicit → _
      split_ifs with hnone
      · exact fun hfalse => by cases hfalse
      · exact id
  · refine hkeep _ rfl rfl rfl ?_ id id
    rw [signalFirst_concat, ← h.signal]
    have hnot : .abort ∉ es := fun hmem => haborted (h.aborted.mpr hmem)
    simp [hnot]
  · refine hkeep _ rfl rfl rfl ?_ id id
    rw [signalFirst_concat, ← h.signal]
    have hnot : ¬ ∀ c, .exit c ∉ es := fun hall => hrunning (h.running.mpr hall)
    simp [hnot]

theorem Accounted.callTerminate (h : Accounted es p) : Accounted (es ++ [.callTerminate]) p.callTerminate := by
  unfold Process.callTerminate
  split_ifs with hcalled
  · have hmem := h.called.mp hcalled
    exact {
      aborted := by simpa using h.aborted
      running := by simpa using h.running
      exited := fun c hc => List.mem_append_left _ (h.exited c hc)
      called := by simp [hcalled]
      signal := by rw [signalFirst_concat]; simpa using h.signal
      claimed := fun hc => absurd hmem (h.claimed hc)
      explicit := fun _ => by simp }
  · have hnone : p.killCause = .none ∨ p.killCause = .signal := by
      cases hcause : p.killCause with
      | none => exact Or.inl rfl
      | signal => exact Or.inr rfl
      | explicit => exact absurd (h.called.mpr (h.explicit hcause)) hcalled
    exact {
      aborted := by simpa [Process.claim] using h.aborted
      running := by simpa [Process.claim] using h.running
      exited := fun c hc => List.mem_append_left _ (h.exited c hc)
      called := by simp
      signal := by
        rw [signalFirst_concat, ← h.signal]
        rcases hnone with hcause | hcause <;> simp [Process.claim, hcause]
      claimed := fun hc => by rcases hnone with hcause | hcause <;> simp [Process.claim, hcause] at hc
      explicit := fun _ => by simp }

/-! ### The calls of `wait` -/

/-- Only the call that holds the lock may set the result, and there is none yet. -/
def Holding (p : Process) : Prop :=
  ∀ i : ℕ, p.waits[i]? = some WaitPhase.holding → p.lock = some i ∧ p.waitResult = none

/-- What a step does to the calls of `wait`: one of them gives the result the exit has then, or none does. -/
structure WaitStep (p p' : Process) : Prop where
  same : Same p p'
  result : p'.waitResult = p.waitResult ∨
    p.waitResult = none ∧ ∃ c, p.returncode = some c ∧ p'.waitResult = some (p.result c)
  returned : ∀ (i : ℕ) (r : Outcome), p'.waits[i]? = some (WaitPhase.returned r) →
    p.waits[i]? = some (WaitPhase.returned r) ∨ p'.waitResult = some r
  holding : Holding p'

/-- A call of a changed table is the changed one or an old one. -/
theorem getElem?_set_cases {waits : List WaitPhase} {i j : ℕ} {new w : WaitPhase} (h : (waits.set i new)[j]? = some w) :
    i = j ∧ w = new ∨ i ≠ j ∧ waits[j]? = some w := by
  rw [List.getElem?_set] at h
  split_ifs at h with heq hlt
  · exact Or.inl ⟨heq, (Option.some.inj h).symm⟩
  · exact Or.inr ⟨heq, h⟩

theorem waitStep_callWait (h : Holding p) : WaitStep p p.callWait := by
  have hlast : ∀ (new w : WaitPhase) (i : ℕ), (p.waits ++ [new])[i]? = some w → p.waits[i]? = some w ∨ w = new :=
    fun new w i hi => (Table.getElem?_concat_cases hi).imp_right And.right
  unfold Process.callWait
  split
  · rename_i outcome hresult
    refine ⟨⟨rfl, rfl, rfl, rfl⟩, Or.inl rfl, fun i r hi => ?_, fun i hi => ?_⟩
    · rcases hlast _ _ i hi with hold | hnew
      · exact Or.inl hold
      · cases hnew
        exact Or.inr hresult
    · exact h i ((hlast _ _ i hi).resolve_right (by simp))
  · refine ⟨⟨rfl, rfl, rfl, rfl⟩, Or.inl rfl, fun i r hi => Or.inl ?_, fun i hi => ?_⟩
    · exact (hlast _ _ i hi).resolve_right (by simp)
    · exact h i ((hlast _ _ i hi).resolve_right (by simp))

theorem waitStep_stepWait (hholding : Holding p) (h : p.stepWait i = some p') : WaitStep p p' := by
  unfold Process.stepWait at h
  cases hphase : p.waits[i]? with
  | none => simp [hphase] at h
  | some phase =>
    rw [hphase] at h
    cases phase with
    | locking =>
      simp only at h
      split_ifs at h with hlock
      -- while nobody has the lock nobody holds it
      have hfree : ∀ j : ℕ, p.waits[j]? ≠ some WaitPhase.holding := by
        intro j hj
        have hheld := (hholding j hj).1
        rw [hlock] at hheld
        cases hheld
      cases hresult : p.waitResult with
      | none =>
        rw [hresult] at h
        cases h
        refine ⟨⟨rfl, rfl, rfl, rfl⟩, Or.inl hresult.symm, fun j r hj => Or.inl ?_, fun j hj => ?_⟩
        · rcases getElem?_set_cases hj with ⟨-, hnew⟩ | ⟨-, hold⟩
          · cases hnew
          · exact hold
        · rcases getElem?_set_cases hj with ⟨rfl, -⟩ | ⟨-, hold⟩
          · exact ⟨rfl, rfl⟩
          · exact absurd hold (hfree j)
      | some outcome =>
        rw [hresult] at h
        cases h
        refine ⟨⟨rfl, rfl, rfl, rfl⟩, Or.inl hresult.symm, fun j r hj => ?_, fun j hj => ?_⟩
        · rcases getElem?_set_cases hj with ⟨-, hnew⟩ | ⟨-, hold⟩
          · cases hnew
            exact Or.inr rfl
          · exact Or.inl hold
        · rcases getElem?_set_cases hj with ⟨-, hnew⟩ | ⟨-, hold⟩
          · cases hnew
          · exact absurd hold (hfree j)
    | holding =>
      simp only at h
      obtain ⟨c, hc, rfl⟩ := Option.map_eq_some_iff.mp h
      obtain ⟨hlock, hnone⟩ := hholding i hphase
      refine ⟨⟨rfl, rfl, rfl, rfl⟩, Or.inr ⟨hnone, c, hc, rfl⟩, fun j r hj => ?_, fun j hj => ?_⟩
      · rcases getElem?_set_cases hj with ⟨-, hnew⟩ | ⟨-, hold⟩
        · cases hnew
          exact Or.inr rfl
        · exact Or.inl hold
      · rcases getElem?_set_cases hj with ⟨-, hnew⟩ | ⟨hne, hold⟩
        · cases hnew
        · have hother := (hholding j hold).1
          rw [hlock] at hother
          exact absurd (Option.some.inj hother) hne
    | returned outcome => cases h
    | cancelled => cases h

theorem waitStep_cancelWait (hholding : Holding p) (h : p.cancelWait i = some p') : WaitStep p p' := by
  have hold : ∀ (j : ℕ) (w : WaitPhase), w ≠ .cancelled → (p.waits.set i .cancelled)[j]? = some w →
      i ≠ j ∧ p.waits[j]? = some w := by
    intro j w hw hj
    rcases getElem?_set_cases hj with ⟨-, hnew⟩ | hold
    · exact absurd hnew hw
    · exact hold
  unfold Process.cancelWait at h
  cases hphase : p.waits[i]? with
  | none => simp [hphase] at h
  | some phase =>
    rw [hphase] at h
    cases phase with
    | locking =>
      cases h
      exact {
        same := ⟨rfl, rfl, rfl, rfl⟩
        result := Or.inl rfl
        returned := fun j r hj => Or.inl (hold j _ (by simp) hj).2
        holding := fun j hj => hholding j (hold j _ (by simp) hj).2 }
    | holding =>
      cases h
      refine ⟨⟨rfl, rfl, rfl, rfl⟩, Or.inl rfl, fun j r hj => Or.inl (hold j _ (by simp) hj).2, fun j hj => ?_⟩
      obtain ⟨hne, hj⟩ := hold j _ (by simp) hj
      have hother := (hholding j hj).1
      rw [(hholding i hphase).1] at hother
      exact absurd (Option.some.inj hother) hne
    | returned outcome => cases h
    | cancelled => cases h

/-- The result is the exit's, and every call that has returned gave it. -/
structure Settled (p : Process) : Prop where
  holding : Holding p
  result : ∀ r, p.waitResult = some r → ∃ c, p.returncode = some c ∧ r = p.result c
  returned : ∀ (i : ℕ) (r : Outcome), p.waits[i]? = some (WaitPhase.returned r) → p.waitResult = some r

theorem settled_spawned (watching : Bool) (handles : Handles) : Settled (spawned watching handles) where
  holding i hi := by simp [spawned] at hi
  result r hr := by simp [spawned] at hr
  returned i r hi := by simp [spawned] at hi

theorem Same.result (h : Same p p') (c : ℤ) : p'.result c = p.result c := by
  rw [Process.result, h.killCause, Process.result]

theorem WaitStep.settled (hstep : WaitStep p p') (h : Settled p) : Settled p' where
  holding := hstep.holding
  result r hr := by
    rw [hstep.same.returncode]
    simp only [hstep.same.result]
    rcases hstep.result with hsame | ⟨-, c, hc, hnew⟩
    · exact h.result r (hsame ▸ hr)
    · rw [hnew] at hr
      cases hr
      exact ⟨c, hc, rfl⟩
  returned i r hi := by
    rcases hstep.returned i r hi with hold | hnow
    · have hresult := h.returned i r hold
      rcases hstep.result with hsame | ⟨hnone, -⟩
      · rw [hsame, hresult]
      · rw [hnone] at hresult
        cases hresult
    · exact hnow

/-- A step apart from the calls of `wait`: after the exit nobody claims the cause for the signal. -/
structure Apart (p p' : Process) : Prop where
  waits : p'.waits = p.waits
  waitResult : p'.waitResult = p.waitResult
  lock : p'.lock = p.lock
  exited : ∀ c, p.returncode = some c → p'.returncode = some c ∧ (p'.killCause = .signal ↔ p.killCause = .signal)

theorem Apart.settled (hstep : Apart p p') (h : Settled p) : Settled p' where
  holding i hi := by
    rw [hstep.lock, hstep.waitResult]
    exact h.holding i (hstep.waits ▸ hi)
  result r hr := by
    obtain ⟨c, hc, hresult⟩ := h.result r (hstep.waitResult ▸ hr)
    obtain ⟨hsame, hcause⟩ := hstep.exited c hc
    refine ⟨c, hsame, ?_⟩
    simp only [hresult, Process.result, hcause]
  returned i r hi := by
    rw [hstep.waitResult]
    exact h.returned i r (hstep.waits ▸ hi)

theorem apart_poll (p : Process) : Apart p p.poll := by
  unfold Process.poll
  split_ifs with hrunning haborted
  · exact ⟨rfl, rfl, rfl, fun c hc => by simp [hrunning] at hc⟩
  · exact ⟨rfl, rfl, rfl, fun c hc => ⟨hc, Iff.rfl⟩⟩
  · exact ⟨rfl, rfl, rfl, fun c hc => ⟨hc, Iff.rfl⟩⟩

theorem apart_callTerminate (p : Process) : Apart p p.callTerminate := by
  unfold Process.callTerminate
  split_ifs with hcalled
  · exact ⟨rfl, rfl, rfl, fun c hc => ⟨hc, Iff.rfl⟩⟩
  · refine ⟨rfl, rfl, rfl, fun c hc => ⟨hc, ?_⟩⟩
    show (if p.killCause = .none then KillCause.explicit else p.killCause) = .signal ↔ _
    cases p.killCause <;> simp

/-- A kill that was confirmed changes the call and the handles only. -/
theorem stepTerminate_cases (h : p.stepTerminate i = some p') :
    ∃ alreadyExited, p.terminates[i]? = some (.killing alreadyExited) ∧
      p' = { p with terminates := p.terminates.set i .returned
                    handles := if alreadyExited then p.disposeTransports.handles else p.handles } := by
  unfold Process.stepTerminate at h
  cases hphase : p.terminates[i]? with
  | none => simp [hphase] at h
  | some phase =>
    rw [hphase] at h
    cases phase with
    | killing alreadyExited =>
      refine ⟨alreadyExited, rfl, ?_⟩
      cases alreadyExited <;> exact (Option.some.inj h).symm
    | returned => cases h

/-- Every step is one of a call of `wait`, or one apart from them. -/
theorem Settled.step (h : Settled p) (e : Event) (hstep : p.step e = some p') : Settled p' := by
  cases e with
  | abort =>
    cases hstep
    exact Apart.settled (p := p) ⟨rfl, rfl, rfl, fun c hc => ⟨hc, Iff.rfl⟩⟩ h
  | exit returncode =>
    rw [Process.step] at hstep
    split_ifs at hstep with hrunning
    cases hstep
    exact Apart.settled (p := p) ⟨rfl, rfl, rfl, fun c hc => by simp [hrunning] at hc⟩ h
  | poll =>
    rw [Process.step] at hstep
    split_ifs at hstep with hwatching
    cases hstep
    exact (apart_poll p).settled h
  | callWait =>
    cases hstep
    exact (waitStep_callWait h.holding).settled h
  | stepWait i => exact (waitStep_stepWait h.holding hstep).settled h
  | cancelWait i => exact (waitStep_cancelWait h.holding hstep).settled h
  | callTerminate =>
    cases hstep
    exact (apart_callTerminate p).settled h
  | stepTerminate i =>
    obtain ⟨alreadyExited, -, rfl⟩ := stepTerminate_cases hstep
    exact Apart.settled (p := p) ⟨rfl, rfl, rfl, fun c hc => ⟨hc, Iff.rfl⟩⟩ h
  | onPipe pipe e =>
    cases hstep
    exact Apart.settled (p := p) ⟨rfl, rfl, rfl, fun c hc => ⟨hc, Iff.rfl⟩⟩ h

/-- What the events so far say holds of the state that a step leads to. -/
theorem Accounted.step (h : Accounted es p) (hholding : Holding p) (e : Event) (hstep : p.step e = some p') :
    Accounted (es ++ [e]) p' := by
  cases e with
  | abort =>
    cases hstep
    exact h.abort
  | exit returncode =>
    rw [Process.step] at hstep
    split_ifs at hstep
    cases hstep
    exact h.exit returncode
  | poll =>
    rw [Process.step] at hstep
    split_ifs at hstep
    cases hstep
    exact h.poll
  | callWait =>
    cases hstep
    exact h.keep (waitStep_callWait hholding).same (by simp) (by simp) (by simp) (by simp)
  | stepWait i => exact h.keep (waitStep_stepWait hholding hstep).same (by simp) (by simp) (by simp) (by simp)
  | cancelWait i => exact h.keep (waitStep_cancelWait hholding hstep).same (by simp) (by simp) (by simp) (by simp)
  | callTerminate =>
    cases hstep
    exact h.callTerminate
  | stepTerminate i =>
    obtain ⟨alreadyExited, -, rfl⟩ := stepTerminate_cases hstep
    refine h.keep ?_ (by simp) (by simp) (by simp) (by simp)
    exact ⟨rfl, rfl, rfl, rfl⟩
  | onPipe pipe e =>
    cases hstep
    refine h.keep ?_ (by simp) (by simp) (by simp) (by simp)
    exact ⟨rfl, rfl, rfl, rfl⟩

/-- The state that a run of a spawned process leads to. -/
theorem accounted_run {watching : Bool} {handles : Handles}
    (hrun : run Process.step (spawned watching handles) es = some p) : Accounted es p ∧ Settled p :=
  @run_history _ _ Process.step (fun es p => Accounted es p ∧ Settled p) _
    ⟨accounted_spawned watching handles, settled_spawned watching handles⟩
    (fun _ _ e _ h hstep => ⟨h.1.step h.2.holding e hstep, h.2.step e hstep⟩) es p hrun

/-- Every call of `wait` that returns gives one result: the aborted error exactly
when the watcher was first, and otherwise the exit status. -/
theorem settles {watching : Bool} {handles : Handles}
    (hrun : run Process.step (spawned watching handles) es = some p) {r : Outcome}
    (hr : p.waits[i]? = some (WaitPhase.returned r)) :
    (∀ (j : ℕ) (r' : Outcome), p.waits[j]? = some (WaitPhase.returned r') → r' = r) ∧
      (SignalFirst es → r = .error ⟨"aborted"⟩) ∧
      (¬ SignalFirst es → ∃ c, .exit c ∈ es ∧ r = .ok ⟨if 0 ≤ c then some c else none⟩) := by
  obtain ⟨haccounted, hsettled⟩ := accounted_run hrun
  have hresult := hsettled.returned i r hr
  obtain ⟨c, hc, rfl⟩ := hsettled.result r hresult
  refine ⟨fun j r' hj => ?_, fun hfirst => ?_, fun hnot => ⟨c, haccounted.exited c hc, ?_⟩⟩
  · have hother := hsettled.returned j r' hj
    rw [hresult] at hother
    exact (Option.some.inj hother).symm
  · exact if_pos (haccounted.signal.mpr hfirst)
  · exact if_neg fun hcause => hnot (haccounted.signal.mp hcause)

/-! ## Python: the pipes -/

theorem shut_disposeTransports (p : Process) : p.disposeTransports.handles.Shut := by
  intro pipe s hs
  rw [Process.disposeTransports, Handles.get_closeStdin] at hs
  cases pipe with
  | stdout =>
    rcases Handles.get_onPipe_cases hs with ⟨heq, -⟩ | ⟨-, hs⟩
    · cases heq
    · rcases Handles.get_onPipe_cases hs with ⟨-, old, -, rfl⟩ | ⟨hne, -⟩
      · exact ReadStream.shut_release old
      · exact absurd rfl hne
  | stderr =>
    rcases Handles.get_onPipe_cases hs with ⟨-, old, -, rfl⟩ | ⟨hne, -⟩
    · exact ReadStream.shut_release old
    · exact absurd rfl hne

theorem keep_stepWait (h : p.stepWait i = some p') : p'.handles = p.handles ∧ p'.terminates = p.terminates := by
  unfold Process.stepWait at h
  grind [Option.map_eq_some_iff]

theorem keep_cancelWait (h : p.cancelWait i = some p') : p'.handles = p.handles ∧ p'.terminates = p.terminates := by
  unfold Process.cancelWait at h
  grind

theorem keep_callWait (p : Process) : p.callWait.handles = p.handles ∧ p.callWait.terminates = p.terminates := by
  unfold Process.callWait
  split <;> exact ⟨rfl, rfl⟩

theorem keep_poll (p : Process) : p.poll.handles = p.handles ∧ p.poll.terminates = p.terminates := by
  unfold Process.poll
  split_ifs <;> exact ⟨rfl, rfl⟩

/-- What a step does to the handles and the calls of `terminate`. -/
inductive TerminateStep (p p' : Process) : Prop
  | keep (handles : p'.handles = p.handles) (terminates : p'.terminates = p.terminates)
  | call (new : TerminatePhase) (handles : p'.handles = p.handles) (terminates : p'.terminates = p.terminates ++ [new])
  | onPipe (pipe : Pipe) (e : StreamEvent) (handles : p'.handles = p.handles.onPipe pipe (·.step e))
      (terminates : p'.terminates = p.terminates)
  | settle (i : ℕ) (alreadyExited : Bool) (killing : p.terminates[i]? = some (TerminatePhase.killing alreadyExited))
      (handles : p'.handles = if alreadyExited then p.disposeTransports.handles else p.handles)
      (terminates : p'.terminates = p.terminates.set i .returned)

theorem terminateStep {e : Event} (hstep : p.step e = some p') : TerminateStep p p' := by
  cases e with
  | abort =>
    cases hstep
    exact .keep rfl rfl
  | exit returncode =>
    rw [Process.step] at hstep
    split_ifs at hstep
    cases hstep
    exact .keep rfl rfl
  | poll =>
    rw [Process.step] at hstep
    split_ifs at hstep
    cases hstep
    exact .keep (keep_poll p).1 (keep_poll p).2
  | callWait =>
    cases hstep
    exact .keep (keep_callWait p).1 (keep_callWait p).2
  | stepWait i => exact .keep (keep_stepWait hstep).1 (keep_stepWait hstep).2
  | cancelWait i => exact .keep (keep_cancelWait hstep).1 (keep_cancelWait hstep).2
  | callTerminate =>
    cases hstep
    unfold Process.callTerminate
    split_ifs
    · exact .call .returned rfl rfl
    · exact .call (.killing p.returncode.isSome) rfl rfl
  | stepTerminate i =>
    obtain ⟨alreadyExited, hkilling, rfl⟩ := stepTerminate_cases hstep
    exact .settle i alreadyExited hkilling rfl rfl
  | onPipe pipe e =>
    cases hstep
    exact .onPipe pipe e rfl rfl

theorem shut_step {e : Event} (hstep : p.step e = some p') (h : p.handles.Shut) : p'.handles.Shut := by
  cases terminateStep hstep with
  | keep hhandles => exact hhandles ▸ h
  | call new hhandles => exact hhandles ▸ h
  | onPipe pipe e hhandles => exact hhandles ▸ h.onPipe (fun s hs => hs.step e) pipe
  | settle i alreadyExited hkilling hhandles =>
    rw [hhandles]
    split_ifs
    · exact shut_disposeTransports p
    · exact h

/-- A call that found the process exited: while it kills, and once it has disposed the transports. -/
def Releasing (t : ℕ) (p : Process) : Prop :=
  p.terminates[t]? = some (TerminatePhase.killing true) ∨
    p.terminates[t]? = some TerminatePhase.returned ∧ p.handles.Shut

theorem Releasing.step {t : ℕ} (h : Releasing t p) {e : Event} (hstep : p.step e = some p') : Releasing t p' := by
  have hshut := fun hs => shut_step hstep hs
  cases terminateStep hstep with
  | keep hhandles hterminates =>
    rw [Releasing, hterminates]
    exact h.imp_right fun hreturned => ⟨hreturned.1, hshut hreturned.2⟩
  | call new hhandles hterminates =>
    have hsame : ∀ phase, p.terminates[t]? = some phase → p'.terminates[t]? = some phase := by
      intro phase hphase
      have hlt : t < p.terminates.length := (List.getElem?_eq_some_iff.mp hphase).1
      rw [hterminates, List.getElem?_append_left hlt, hphase]
    exact h.imp (hsame _) fun hreturned => ⟨hsame _ hreturned.1, hshut hreturned.2⟩
  | onPipe pipe e hhandles hterminates =>
    rw [Releasing, hterminates]
    exact h.imp_right fun hreturned => ⟨hreturned.1, hshut hreturned.2⟩
  | settle i alreadyExited hkilling hhandles hterminates =>
    by_cases heq : i = t
    · subst heq
      have hexited : alreadyExited = true := by
        rcases h with hphase | ⟨hphase, -⟩
        · rw [hkilling] at hphase
          cases hphase
          rfl
        · rw [hkilling] at hphase
          cases hphase
      have hlt : i < p.terminates.length := (List.getElem?_eq_some_iff.mp hkilling).1
      refine Or.inr ⟨by rw [hterminates, List.getElem?_set_self hlt], ?_⟩
      rw [hhandles, if_pos hexited]
      exact shut_disposeTransports p
    · rw [Releasing, hterminates, List.getElem?_set_ne heq]
      exact h.imp_right fun hreturned => ⟨hreturned.1, hshut hreturned.2⟩

/-- Some call of `wait` has returned. -/
def Waited (p : Process) : Prop := ∃ (i : ℕ) (r : Outcome), p.waits[i]? = some (WaitPhase.returned r)

/-- Behind the call of `terminate` that begins here, once it returns, the piped streams end. -/
def Releases (p : Process) : Prop :=
  ∀ (es : List Event) (p' : Process), run Process.step p.callTerminate es = some p' →
    p'.terminates[p.terminates.length]? = some TerminatePhase.returned → p'.handles.End

/-- Once a `wait` has returned, a `terminate` releases the pipes if it is the
first; a later one leaves them as they are. -/
theorem releases_iff (hsettled : Settled p) (hwaited : Waited p) :
    Releases p ↔ p.terminateCalled = false ∨ p.handles.Shut := by
  constructor
  · intro h
    cases hcalled : p.terminateCalled with
    | false => exact Or.inl rfl
    | true =>
      have hnothing : p.callTerminate = { p with terminates := p.terminates ++ [.returned] } := if_pos hcalled
      have hend := h [] p.callTerminate rfl (by simp [hnothing])
      rw [Handles.end_iff, hnothing] at hend
      exact Or.inr hend
  · rintro (hcalled | hshut) es p' hrun hreturned
    · obtain ⟨i, r, hr⟩ := hwaited
      obtain ⟨c, hc, -⟩ := hsettled.result r (hsettled.returned i r hr)
      have hfirst : Releasing p.terminates.length p.callTerminate := by
        left
        simp [Process.callTerminate, Process.claim, hcalled, hc]
      have hlast := run_preserves (fun _ _ _ h hstep => Releasing.step h hstep) hrun hfirst
      rw [Handles.end_iff]
      rcases hlast with hkilling | ⟨-, hshut⟩
      · rw [hkilling] at hreturned
        cases hreturned
      · exact hshut
    · rw [Handles.end_iff]
      have hcall : p.callTerminate.handles.Shut := @shut_step p _ .callTerminate rfl hshut
      exact run_preserves (fun _ _ _ h hstep => shut_step hstep h) hrun hcall

/-- `wait` gives one result, the aborted error exactly when the watcher was first
and otherwise the exit status, and a `terminate` releases the pipes. -/
structure Meets (es : List Event) (p : Process) : Prop where
  one : ∃ r : Outcome, (∀ (i : ℕ) (r' : Outcome), p.waits[i]? = some (WaitPhase.returned r') → r' = r) ∧
    (SignalFirst es → r = .error ⟨"aborted"⟩) ∧
    (¬ SignalFirst es → ∃ c, .exit c ∈ es ∧ r = .ok ⟨if 0 ≤ c then some c else none⟩)
  releases : Releases p

theorem meets_iff {watching : Bool} {handles : Handles}
    (hrun : run Process.step (spawned watching handles) es = some p) (hwaited : Waited p) :
    Meets es p ↔ p.terminateCalled = false ∨ p.handles.Shut := by
  obtain ⟨-, hsettled⟩ := accounted_run hrun
  have hreleases := releases_iff hsettled hwaited
  obtain ⟨i, r, hr⟩ := hwaited
  constructor
  · exact fun hmeets => hreleases.mp hmeets.releases
  · exact fun hcond => ⟨⟨r, settles hrun hr⟩, hreleases.mpr hcond⟩

end Python

end MinionAgent.Subprocess
