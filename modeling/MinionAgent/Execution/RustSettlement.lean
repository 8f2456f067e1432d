import MinionAgent.Execution.SettlementRuns

/-!
# MinionAgent.Execution.RustSettlement

What `wait` and `terminate` give in every run of a process spawned in Rust.

* `Rust.settles` — one result, which is the aborted error exactly when the
  monitor's claim of the cause was first;
* `Rust.lookFirst_iff` — so it is exactly when its look at the signal was, if no
  `terminate` comes between the two;
* `Rust.releases` — behind a `terminate` that begins once a `wait` has returned,
  the piped streams end.
-/

namespace MinionAgent.Subprocess

open Transition

namespace Rust

/-! ## The result -/

/-- The monitor claims the cause, having seen the signal aborted, before any `terminate` does. -/
def ClaimFirst : List Event → Prop :=
  Happens .observeSignal fun before => ∀ i, .claimTerminate i ∉ before

/-- The monitor looks at the aborted signal before it saw the exit and before any `terminate` claims the cause. -/
def LookFirst : List Event → Prop :=
  Happens .lookAtSignal fun before => .abort ∈ before ∧ .observeExit ∉ before ∧ ∀ i, .claimTerminate i ∉ before

/-- A call of `wait` gives the outcome that there is, or none. -/
def Waits (p : Process) (waits : List WaitPhase) : Prop :=
  ∀ (i : ℕ) (r : Outcome), waits[i]? = some (WaitPhase.returned r) →
    p.waits[i]? = some (WaitPhase.returned r) ∨ p.outcome = some r

/-- An operation of a call of `terminate` other than its claim. -/
inductive Closing (p : Process) : TerminatePhase → Handles → TerminatePhase → Prop
  | called : Closing p .called p.handles (.claiming p.outcome.isSome)
  | stdout : Closing p .closingStdout (p.handles.onPipe .stdout ReadStream.close) .closingStderr
  | stderr : Closing p .closingStderr (p.handles.onPipe .stderr ReadStream.close) .closingStdin
  | stdin : Closing p .closingStdin p.handles.closeStdin .returned

/-- The monitor has not seen the exit. -/
def MonitorPhase.running : MonitorPhase → Prop
  | .exited _ | .sending _ | .done => False
  | _ => True

/-- A step: what it is possible for, and what it changes. -/
inductive Stepped (p : Process) : Event → Process → Prop
  | abort : Stepped p .abort { p with aborted := true }
  | exit (code : Option ℤ) (running : p.exitCode = none) : Stepped p (.exit code) { p with exitCode := some code }
  | lookAtSignal (looking : p.monitor = .looking) :
    Stepped p .lookAtSignal { p with monitor := if p.hasSignal && p.aborted then .claiming else .loading }
  | observeSignal (claiming : p.monitor = .claiming) :
      Stepped p .observeSignal { p.claim .signal with monitor := .loading }
  | turn (e : Event) (before : p.monitor.running ∧ p.monitor ≠ .claiming) (phase : MonitorPhase)
    (after : phase.running ∧ phase ≠ .claiming) (event : e = .findRunning ∨ e = .loadCause ∨ e = .wake) :
    Stepped p e { p with monitor := phase }
  | observeExit (code : Option ℤ) (before : p.monitor.running ∧ p.monitor ≠ .claiming)
      (exited : p.exitCode = some code) :
    Stepped p .observeExit { p with monitor := .exited code }
  | classify (code : Option ℤ) (exited : p.monitor = .exited code) :
    Stepped p .classify { p with monitor := .sending (Process.classifyExit p.cause code) }
  | send (outcome : Outcome) (sending : p.monitor = .sending outcome) :
    Stepped p .send { p with monitor := .done, outcome := some outcome }
  | wait (e : Event) (waits : List WaitPhase) (returned : Waits p waits)
    (event : e = .callWait ∨ (∃ i, e = .stepWait i) ∨ ∃ i, e = .cancelWait i) : Stepped p e { p with waits := waits }
  | callTerminate : Stepped p .callTerminate { p with terminates := p.terminates ++ [.called] }
  | claimTerminate (i : ℕ) (settled : Bool) (claiming : p.terminates[i]? = some (TerminatePhase.claiming settled)) :
    Stepped p (.claimTerminate i) { p.claim .explicit with
                                     terminates := p.terminates.set i (if settled then .closingStdout else .returned) }
  | stepTerminate (i : ℕ) (phase phase' : TerminatePhase) (handles : Handles)
    (there : p.terminates[i]? = some phase) (closing : Closing p phase handles phase') :
    Stepped p (.stepTerminate i) { p with handles := handles, terminates := p.terminates.set i phase' }
  | onPipe (pipe : Pipe) (e : StreamEvent) :
    Stepped p (.onPipe pipe e) { p with handles := p.handles.onPipe pipe (·.step e) }

theorem waits_concat (p : Process) : Waits p (p.waits ++ [.waiting]) := by
  intro i r hi
  rcases Table.getElem?_concat_cases hi with hold | ⟨-, hnew⟩
  · exact Or.inl hold
  · cases hnew

theorem waits_set {p : Process} {i : ℕ} {w : WaitPhase} (hw : ∀ r, w = .returned r → p.outcome = some r) :
    Waits p (p.waits.set i w) := by
  intro j r hj
  rw [List.getElem?_set] at hj
  split_ifs at hj
  · exact Or.inr (hw r (Option.some.inj hj))
  · exact Or.inl hj

theorem stepped {p p' : Process} {e : Event} (h : p.step e = some p') : Stepped p e p' := by
  cases e with
  | abort =>
    cases h
    exact .abort
  | exit code =>
    rw [Process.step] at h
    split_ifs at h with hrunning
    cases h
    exact .exit code hrunning
  | findRunning =>
    rw [Process.step, Process.findRunning] at h
    split_ifs at h with hphase
    cases h
    exact .turn _ (by simp [hphase.1, MonitorPhase.running]) .looking (by simp [MonitorPhase.running]) (Or.inl rfl)
  | lookAtSignal =>
    rw [Process.step, Process.lookAtSignal] at h
    split at h
    · rename_i hphase
      cases h
      exact .lookAtSignal hphase
    · cases h
  | observeSignal =>
    rw [Process.step, Process.observeSignal] at h
    split_ifs at h with hphase
    cases h
    exact .observeSignal hphase
  | loadCause =>
    rw [Process.step, Process.loadCause] at h
    split at h
    · rename_i hphase
      cases h
      refine .turn _ (by simp [hphase, MonitorPhase.running]) _ ?_ (Or.inr (Or.inl rfl))
      split_ifs <;> simp [MonitorPhase.running]
    · cases h
  | wake =>
    rw [Process.step, Process.wake] at h
    split_ifs at h with hphase
    cases h
    exact .turn _ (by simp [hphase, MonitorPhase.running]) .trying (by simp [MonitorPhase.running])
      (Or.inr (Or.inr rfl))
  | observeExit =>
    rw [Process.step, Process.observeExit] at h
    split_ifs at h with hphase
    obtain ⟨code, hcode, rfl⟩ := Option.map_eq_some_iff.mp h
    refine .observeExit code ?_ hcode
    rcases hphase with hphase | hphase | hphase <;> simp [hphase, MonitorPhase.running]
  | classify =>
    rw [Process.step, Process.classify] at h
    split at h
    · rename_i code hphase
      cases h
      exact .classify code hphase
    · cases h
  | send =>
    rw [Process.step, Process.send] at h
    split at h
    · rename_i outcome hphase
      cases h
      exact .send outcome hphase
    · cases h
  | callWait =>
    cases h
    exact .wait _ _ (waits_concat p) (Or.inl rfl)
  | stepWait i =>
    rw [Process.step, Process.stepWait] at h
    split at h
    · obtain ⟨outcome, houtcome, rfl⟩ := Option.map_eq_some_iff.mp h
      refine .wait _ _ (waits_set fun r hr => ?_) (Or.inr (Or.inl ⟨i, rfl⟩))
      cases hr
      exact houtcome
    · cases h
  | cancelWait i =>
    rw [Process.step, Process.cancelWait] at h
    split at h
    · cases h
      exact .wait _ _ (waits_set fun r hr => by cases hr) (Or.inr (Or.inr ⟨i, rfl⟩))
    · cases h
  | callTerminate =>
    cases h
    exact .callTerminate
  | claimTerminate i =>
    rw [Process.step, Process.claimTerminate] at h
    split at h
    · rename_i settled hphase
      cases h
      exact .claimTerminate i settled hphase
    · cases h
  | stepTerminate i =>
    rw [Process.step, Process.stepTerminate] at h
    split at h
    · rename_i hphase
      cases h
      exact .stepTerminate i _ _ _ hphase .called
    · rename_i hphase
      cases h
      exact .stepTerminate i _ _ _ hphase .stdout
    · rename_i hphase
      cases h
      exact .stepTerminate i _ _ _ hphase .stderr
    · rename_i hphase
      cases h
      exact .stepTerminate i _ _ _ hphase .stdin
    · cases h
  | onPipe pipe e =>
    cases h
    exact .onPipe pipe e

/-- What the events so far say of the signal, the exit and the cause. -/
structure Accounted (hasSignal : Bool) (es : List Event) (p : Process) : Prop where
  hasSignal : p.hasSignal = hasSignal
  aborted : p.aborted = true ↔ .abort ∈ es
  exited : ∀ code, p.exitCode = some code → .exit code ∈ es
  observed : p.monitor.running ↔ .observeExit ∉ es
  signal : p.cause = .signal ↔ ClaimFirst es
  claimed : p.cause = .none → ∀ i, .claimTerminate i ∉ es
  explicit : p.cause = .explicit → ∃ i, .claimTerminate i ∈ es

theorem accounted_spawned (hasSignal : Bool) (handles : Handles) :
    Accounted hasSignal [] (spawned hasSignal handles) where
  hasSignal := rfl
  aborted := by simp [spawned]
  exited := by simp [spawned]
  observed := by simp [spawned, MonitorPhase.running]
  signal := by simp [spawned, ClaimFirst, not_happens_nil]
  claimed := by simp
  explicit := by simp [spawned]

theorem claimFirst_concat (es : List Event) (e : Event) :
    ClaimFirst (es ++ [e]) ↔ ClaimFirst es ∨ e = .observeSignal ∧ ∀ i, .claimTerminate i ∉ es :=
  happens_concat _ _ es e

theorem lookFirst_concat (es : List Event) (e : Event) :
    LookFirst (es ++ [e]) ↔
      LookFirst es ∨ e = .lookAtSignal ∧ .abort ∈ es ∧ .observeExit ∉ es ∧ ∀ i, .claimTerminate i ∉ es :=
  happens_concat _ _ es e

/-- The signal, the exit and the cause stay, and whether the monitor has seen the exit. -/
structure Same (p p' : Process) : Prop where
  hasSignal : p'.hasSignal = p.hasSignal
  aborted : p'.aborted = p.aborted
  exitCode : p'.exitCode = p.exitCode
  cause : p'.cause = p.cause
  running : p'.monitor.running ↔ p.monitor.running

/-- The events that say something of them. -/
def Event.telling : Event → Prop
  | .abort | .exit _ | .observeSignal | .observeExit | .claimTerminate _ => True
  | _ => False

variable {hasSignal : Bool} {handles : Handles} {es : List Event} {p p' : Process} {e : Event}

theorem Accounted.keep (h : Accounted hasSignal es p) (hsame : Same p p') (he : ¬ e.telling) :
    Accounted hasSignal (es ++ [e]) p' := by
  have hother : ∀ x : Event, x.telling → (x ∈ es ++ [e] ↔ x ∈ es) := by
    intro x hx
    have hne : x ≠ e := fun heq => he (heq ▸ hx)
    simp [hne]
  have hclaim : ∀ i, .claimTerminate i ∈ es ++ [e] ↔ .claimTerminate i ∈ es := fun i => hother _ trivial
  exact {
    hasSignal := by rw [hsame.hasSignal, h.hasSignal]
    aborted := by rw [hsame.aborted, h.aborted, hother .abort trivial]
    exited := fun code hcode => (hother (.exit code) trivial).mpr (h.exited code (hsame.exitCode ▸ hcode))
    observed := by rw [hsame.running, h.observed, hother .observeExit trivial]
    signal := by
      have hne : e ≠ .observeSignal := fun heq => he (heq ▸ trivial)
      rw [hsame.cause, h.signal, claimFirst_concat]
      simp [hne]
    claimed := fun hc i => by
      rw [hclaim]
      exact h.claimed (hsame.cause ▸ hc) i
    explicit := fun hc => (h.explicit (hsame.cause ▸ hc)).imp fun i hi => (hclaim i).mpr hi }

theorem Accounted.abort (h : Accounted hasSignal es p) :
    Accounted hasSignal (es ++ [.abort]) { p with aborted := true } where
  hasSignal := h.hasSignal
  aborted := by simp
  exited code hcode := List.mem_append_left _ (h.exited code hcode)
  observed := by simpa using h.observed
  signal := by rw [h.signal, claimFirst_concat]; simp
  claimed hc := by simpa using h.claimed hc
  explicit hc := (h.explicit hc).imp fun i hi => List.mem_append_left _ hi

theorem Accounted.exit (h : Accounted hasSignal es p) (code : Option ℤ) :
    Accounted hasSignal (es ++ [.exit code]) { p with exitCode := some code } where
  hasSignal := h.hasSignal
  aborted := by simpa using h.aborted
  exited code' hcode := by
    cases hcode
    simp
  observed := by simpa using h.observed
  signal := by rw [h.signal, claimFirst_concat]; simp
  claimed hc := by simpa using h.claimed hc
  explicit hc := (h.explicit hc).imp fun i hi => List.mem_append_left _ hi

theorem Accounted.observeExit (h : Accounted hasSignal es p) (code : Option ℤ) :
    Accounted hasSignal (es ++ [.observeExit]) { p with monitor := .exited code } where
  hasSignal := h.hasSignal
  aborted := by simpa using h.aborted
  exited code' hcode := List.mem_append_left _ (h.exited code' hcode)
  observed := by simp [MonitorPhase.running]
  signal := by rw [h.signal, claimFirst_concat]; simp
  claimed hc := by simpa using h.claimed hc
  explicit hc := (h.explicit hc).imp fun i hi => List.mem_append_left _ hi

/-- The monitor's claim counts if no `terminate` has claimed the cause. -/
theorem Accounted.observeSignal (h : Accounted hasSignal es p) (hclaiming : p.monitor = .claiming) :
    Accounted hasSignal (es ++ [.observeSignal]) { p.claim .signal with monitor := .loading } where
  hasSignal := h.hasSignal
  aborted := by simpa [Process.claim] using h.aborted
  exited code hcode := List.mem_append_left _ (h.exited code hcode)
  observed := by
    have hrunning : Event.observeExit ∉ es := h.observed.mp (by simp [hclaiming, MonitorPhase.running])
    simp [hrunning, MonitorPhase.running]
  signal := by
    rw [claimFirst_concat, ← h.signal]
    show (if p.cause = .none then KillCause.signal else p.cause) = .signal ↔ _
    cases hcause : p.cause with
    | none => simpa using h.claimed hcause
    | signal => simp
    | explicit => simpa using h.explicit hcause
  claimed hc := by
    simp only [Process.claim] at hc
    split_ifs at hc with hnone
    exact absurd hc hnone
  explicit hc := by
    simp only [Process.claim] at hc
    split_ifs at hc with hnone
    exact (h.explicit hc).imp fun i hi => List.mem_append_left _ hi

theorem Accounted.claimTerminate (h : Accounted hasSignal es p) (i : ℕ) (terminates : List TerminatePhase) :
    Accounted hasSignal (es ++ [.claimTerminate i]) { p.claim .explicit with terminates := terminates } where
  hasSignal := h.hasSignal
  aborted := by simpa [Process.claim] using h.aborted
  exited code hcode := List.mem_append_left _ (h.exited code hcode)
  observed := by simpa [Process.claim] using h.observed
  signal := by
    rw [claimFirst_concat, ← h.signal]
    show (if p.cause = .none then KillCause.explicit else p.cause) = .signal ↔ _
    cases hcause : p.cause <;> simp
  claimed hc := by
    simp only [Process.claim] at hc
    split_ifs at hc with hnone
    exact absurd hc hnone
  explicit _ := ⟨i, by simp⟩

theorem Accounted.step (h : Accounted hasSignal es p) (hstep : Stepped p e p') :
    Accounted hasSignal (es ++ [e]) p' := by
  cases hstep with
  | abort => exact h.abort
  | exit code hrunning => exact h.exit code
  | lookAtSignal hlooking =>
    refine h.keep ?_ ?_
    · refine ⟨rfl, rfl, rfl, rfl, iff_of_true ?_ (by simp [hlooking, MonitorPhase.running])⟩
      show MonitorPhase.running (if _ then _ else _)
      split_ifs <;> simp [MonitorPhase.running]
    · exact fun htelling => htelling
  | observeSignal hclaiming => exact h.observeSignal hclaiming
  | turn _ hbefore phase hafter hevent =>
    refine h.keep ?_ ?_
    · exact ⟨rfl, rfl, rfl, rfl, iff_of_true hafter.1 hbefore.1⟩
    · rcases hevent with rfl | rfl | rfl <;> exact fun htelling => htelling
  | observeExit code hbefore hexit => exact h.observeExit code
  | classify code hexit =>
    refine h.keep ?_ ?_
    · exact ⟨rfl, rfl, rfl, rfl, by simp [hexit, MonitorPhase.running]⟩
    · exact fun htelling => htelling
  | send outcome hsending =>
    refine h.keep ?_ ?_
    · exact ⟨rfl, rfl, rfl, rfl, by simp [hsending, MonitorPhase.running]⟩
    · exact fun htelling => htelling
  | wait _ waits hreturned hevent =>
    refine h.keep ?_ ?_
    · exact ⟨rfl, rfl, rfl, rfl, Iff.rfl⟩
    · rcases hevent with rfl | ⟨i, rfl⟩ | ⟨i, rfl⟩ <;> exact fun htelling => htelling
  | callTerminate =>
    refine h.keep ?_ ?_
    · exact ⟨rfl, rfl, rfl, rfl, Iff.rfl⟩
    · exact fun htelling => htelling
  | claimTerminate i settled hclaiming => exact h.claimTerminate i _
  | stepTerminate i phase phase' handles hthere hclosing =>
    refine h.keep ?_ ?_
    · exact ⟨rfl, rfl, rfl, rfl, Iff.rfl⟩
    · exact fun htelling => htelling
  | onPipe pipe e =>
    refine h.keep ?_ ?_
    · exact ⟨rfl, rfl, rfl, rfl, Iff.rfl⟩
    · exact fun htelling => htelling

/-- The outcome is that of the exit that was seen, with the cause that was claimed
by then, and every call that has returned gave it. -/
structure Settled (p : Process) : Prop where
  exited : ∀ code, p.monitor = .exited code → p.exitCode = some code
  sending : ∀ r, p.monitor = .sending r → ∃ code, p.exitCode = some code ∧ r = Process.classifyExit p.cause code
  sent : ∀ r, p.outcome = some r →
    p.monitor = .done ∧ ∃ code, p.exitCode = some code ∧ r = Process.classifyExit p.cause code
  returned : ∀ (i : ℕ) (r : Outcome), p.waits[i]? = some (WaitPhase.returned r) → p.outcome = some r

theorem settled_spawned (hasSignal : Bool) (handles : Handles) : Settled (spawned hasSignal handles) where
  exited code h := by cases h
  sending r h := by cases h
  sent r h := by cases h
  returned i r h := by simp [spawned] at h

/-- A step while the exit has not been seen. -/
theorem Settled.running (h : Settled p) (hbefore : p.monitor.running) (hafter : p'.monitor.running)
    (houtcome : p'.outcome = p.outcome) (hwaits : p'.waits = p.waits) : Settled p' := by
  have hnone : p.outcome = none := by
    cases hsome : p.outcome with
    | none => rfl
    | some r =>
      rw [(h.sent r hsome).1] at hbefore
      cases hbefore
  exact {
    exited := fun code hphase => by
      rw [hphase] at hafter
      cases hafter
    sending := fun r hphase => by
      rw [hphase] at hafter
      cases hafter
    sent := fun r hr => by
      rw [houtcome, hnone] at hr
      cases hr
    returned := fun i r hi => by
      rw [houtcome]
      exact h.returned i r (hwaits ▸ hi) }

/-- A step that leaves the monitor and the exit as they are; the cause may be claimed for a `terminate`. -/
theorem Settled.keep (h : Settled p) (hmonitor : p'.monitor = p.monitor)
    (hexit : ∀ code, p.exitCode = some code → p'.exitCode = some code)
    (hcause : p'.cause = .signal ↔ p.cause = .signal) (houtcome : p'.outcome = p.outcome)
    (hwaits : Waits p p'.waits) : Settled p' := by
  have hsame : ∀ code, Process.classifyExit p'.cause code = Process.classifyExit p.cause code := by
    intro code
    simp only [Process.classifyExit, hcause]
  exact {
    exited := fun code hphase => hexit code (h.exited code (hmonitor ▸ hphase))
    sending := fun r hphase => by
      obtain ⟨code, hcode, hr⟩ := h.sending r (hmonitor ▸ hphase)
      exact ⟨code, hexit code hcode, by rw [hsame, hr]⟩
    sent := fun r hr => by
      obtain ⟨hdone, code, hcode, hr⟩ := h.sent r (houtcome ▸ hr)
      exact ⟨by rw [hmonitor, hdone], code, hexit code hcode, by rw [hsame, hr]⟩
    returned := fun i r hi => by
      rw [houtcome]
      exact (hwaits i r hi).elim (h.returned i r) id }

theorem waits_refl (p : Process) : Waits p p.waits := fun _ _ hi => Or.inl hi

theorem cause_claim_explicit (p : Process) : (p.claim .explicit).cause = .signal ↔ p.cause = .signal := by
  show (if p.cause = .none then KillCause.explicit else p.cause) = .signal ↔ _
  cases p.cause <;> simp

theorem Settled.step (h : Settled p) (hstep : Stepped p e p') : Settled p' := by
  cases hstep with
  | abort => exact h.keep rfl (fun _ => id) Iff.rfl rfl (waits_refl p)
  | exit code hrunning => exact h.keep rfl (fun code' hcode => by simp [hrunning] at hcode) Iff.rfl rfl (waits_refl p)
  | lookAtSignal hlooking =>
    refine h.running (by simp [hlooking, MonitorPhase.running]) ?_ rfl rfl
    show MonitorPhase.running (if _ then _ else _)
    split_ifs <;> simp [MonitorPhase.running]
  | observeSignal hclaiming =>
    exact h.running (by simp [hclaiming, MonitorPhase.running]) (by simp [MonitorPhase.running]) rfl rfl
  | turn e hbefore phase hafter hevent => exact h.running hbefore.1 hafter.1 rfl rfl
  | observeExit code hbefore hexit =>
    have hnone : p.outcome = none := by
      cases hsome : p.outcome with
      | none => rfl
      | some r =>
        have hdone := hbefore.1
        rw [(h.sent r hsome).1] at hdone
        cases hdone
    exact {
      exited := fun code' hphase => by
        cases hphase
        exact hexit
      sending := fun r hphase => by cases hphase
      sent := fun r hr => by simp [hnone] at hr
      returned := h.returned }
  | classify code hexit =>
    exact {
      exited := fun code' hphase => by cases hphase
      sending := fun r hphase => by
        cases hphase
        exact ⟨code, h.exited code hexit, rfl⟩
      sent := fun r hr => by
        have hdone := (h.sent r hr).1
        rw [hexit] at hdone
        cases hdone
      returned := h.returned }
  | send outcome hsending =>
    have hnone : p.outcome = none := by
      cases hsome : p.outcome with
      | none => rfl
      | some r =>
        have hdone := (h.sent r hsome).1
        rw [hsending] at hdone
        cases hdone
    exact {
      exited := fun code' hphase => by cases hphase
      sending := fun r hphase => by cases hphase
      sent := fun r hr => by
        cases hr
        exact ⟨rfl, h.sending outcome hsending⟩
      returned := fun i r hi => by
        have hsome := h.returned i r hi
        rw [hnone] at hsome
        cases hsome }
  | wait e waits hreturned hevent => exact h.keep rfl (fun _ => id) Iff.rfl rfl hreturned
  | callTerminate => exact Settled.keep (p := p) h rfl (fun _ => id) Iff.rfl rfl (waits_refl p)
  | claimTerminate i settled hclaiming =>
    exact Settled.keep (p := p) h rfl (fun _ => id) (cause_claim_explicit p) rfl (waits_refl p)
  | stepTerminate i phase phase' handles hthere hclosing =>
    exact Settled.keep (p := p) h rfl (fun _ => id) Iff.rfl rfl (waits_refl p)
  | onPipe pipe e => exact Settled.keep (p := p) h rfl (fun _ => id) Iff.rfl rfl (waits_refl p)

/-- The state that a run of a spawned process leads to. -/
theorem accounted_run (hrun : run Process.step (spawned hasSignal handles) es = some p) :
    Accounted hasSignal es p ∧ Settled p :=
  @run_history _ _ Process.step (fun es p => Accounted hasSignal es p ∧ Settled p) _
    ⟨accounted_spawned hasSignal handles, settled_spawned hasSignal handles⟩
    (fun _ _ _ _ h hstep => ⟨h.1.step (stepped hstep), h.2.step (stepped hstep)⟩) es p hrun

/-- Every call of `wait` that returns gives one result: the aborted error exactly
when the monitor's claim was first, and otherwise the exit status. -/
theorem settles (hrun : run Process.step (spawned hasSignal handles) es = some p) {i : ℕ} {r : Outcome}
    (hr : p.waits[i]? = some (WaitPhase.returned r)) :
    (∀ (j : ℕ) (r' : Outcome), p.waits[j]? = some (WaitPhase.returned r') → r' = r) ∧
      (ClaimFirst es → r = .error ⟨"operation aborted"⟩) ∧
      (¬ ClaimFirst es → ∃ code, .exit code ∈ es ∧ r = .ok ⟨code⟩) := by
  obtain ⟨haccounted, hsettled⟩ := accounted_run hrun
  have hresult := hsettled.returned i r hr
  obtain ⟨-, code, hcode, rfl⟩ := hsettled.sent r hresult
  refine ⟨fun j r' hj => ?_, fun hfirst => ?_, fun hnot => ⟨code, haccounted.exited code hcode, ?_⟩⟩
  · have hother := hsettled.returned j r' hj
    rw [hresult] at hother
    exact (Option.some.inj hother).symm
  · exact if_pos (haccounted.signal.mpr hfirst)
  · exact if_neg fun hcause => hnot (haccounted.signal.mp hcause)

/-! ### The look and the claim -/

/-- A `terminate` claims the cause between the monitor's look at the aborted signal and its claim. -/
def Overtaken (hasSignal : Bool) (handles : Handles) (es : List Event) : Prop :=
  ∃ i, Happens (.claimTerminate i) (fun before => ∃ p, run Process.step (spawned hasSignal handles) before = some p ∧
    p.monitor = .claiming ∧ p.cause = .none) es

theorem overtaken_concat (hrun : run Process.step (spawned hasSignal handles) es = some p) (e : Event) :
    Overtaken hasSignal handles (es ++ [e]) ↔
      Overtaken hasSignal handles es ∨ (∃ i, e = .claimTerminate i) ∧ p.monitor = .claiming ∧ p.cause = .none := by
  simp only [Overtaken, happens_concat, hrun, Option.some.injEq, exists_or, exists_eq_left', exists_and_right]

/-- What the look and the claim of the monitor have come to. -/
structure Looked (hasSignal : Bool) (handles : Handles) (es : List Event) (p : Process) : Prop where
  overtaken : Overtaken hasSignal handles es → p.cause = .explicit
  looked : hasSignal = true ∧ LookFirst es ↔
    p.cause = .signal ∨ p.monitor = .claiming ∧ p.cause = .none ∨ Overtaken hasSignal handles es

theorem looked_spawned (hasSignal : Bool) (handles : Handles) :
    Looked hasSignal handles [] (spawned hasSignal handles) where
  overtaken := by
    rintro ⟨i, hhappens⟩
    exact absurd hhappens (not_happens_nil _ _)
  looked := by simp [LookFirst, Overtaken, not_happens_nil, spawned]

/-- The look and the claim. -/
def Event.racing : Event → Prop
  | .lookAtSignal | .claimTerminate _ => True
  | _ => False

/-- A step that is neither the look nor a claim of a `terminate`. -/
theorem Looked.keep (h : Looked hasSignal handles es p)
    (hrun : run Process.step (spawned hasSignal handles) es = some p)
    (hsame : p'.cause = p.cause ∧ (p'.monitor = .claiming ↔ p.monitor = .claiming)) (he : ¬ e.racing) :
    Looked hasSignal handles (es ++ [e]) p' := by
  have hlook : e ≠ .lookAtSignal := fun heq => he (heq ▸ trivial)
  have hclaim : ∀ i, e ≠ .claimTerminate i := fun i heq => he (heq ▸ trivial)
  refine ⟨fun hover => ?_, ?_⟩
  · rw [overtaken_concat hrun] at hover
    rw [hsame.1]
    exact h.overtaken (hover.resolve_right fun hright => hright.1.elim hclaim)
  · rw [overtaken_concat hrun, lookFirst_concat, hsame.1, hsame.2]
    simpa [hlook, hclaim] using h.looked

theorem Looked.lookAtSignal (h : Looked hasSignal handles es p)
    (hrun : run Process.step (spawned hasSignal handles) es = some p) (haccounted : Accounted hasSignal es p)
    (hlooking : p.monitor = .looking) :
    Looked hasSignal handles (es ++ [.lookAtSignal])
      { p with monitor := if p.hasSignal && p.aborted then .claiming else .loading } where
  overtaken hover := by
    rw [overtaken_concat hrun] at hover
    exact h.overtaken (hover.resolve_right (by simp))
  looked := by
    have hexit : .observeExit ∉ es := haccounted.observed.mp (by simp [hlooking, MonitorPhase.running])
    have hbefore := h.looked
    have hphase : (if p.hasSignal && p.aborted then MonitorPhase.claiming else .loading) = .claiming ↔
        hasSignal = true ∧ .abort ∈ es := by
      rw [haccounted.hasSignal, ← haccounted.aborted]
      split_ifs with hboth <;> simpa using hboth
    have hclaims : (∀ i, .claimTerminate i ∉ es) → p.cause ≠ .explicit := fun hnone hcause => by
      obtain ⟨i, hi⟩ := haccounted.explicit hcause
      exact hnone i hi
    rw [overtaken_concat hrun, lookFirst_concat, hphase]
    simp only [hlooking, reduceCtorEq, false_and, false_or] at hbefore
    cases hcause : p.cause with
    | none =>
      have hnone := haccounted.claimed hcause
      simp only [hcause, reduceCtorEq, false_or] at hbefore
      simp only [reduceCtorEq, true_and, hexit, hnone, not_false_eq_true, implies_true, and_true, false_and,
        exists_false, false_or, or_false, ← hbefore]
      tauto
    | signal =>
      simp only [hcause, true_or, iff_true] at hbefore
      simp [hbefore]
    | explicit =>
      have hsome : ¬ ∀ i, .claimTerminate i ∉ es := fun hnone => hclaims hnone hcause
      simp only [hcause, reduceCtorEq, false_or] at hbefore
      simp [hsome, hbefore]

theorem Looked.step (h : Looked hasSignal handles es p)
    (hrun : run Process.step (spawned hasSignal handles) es = some p) (haccounted : Accounted hasSignal es p)
    (hstep : Stepped p e p') : Looked hasSignal handles (es ++ [e]) p' := by
  cases hstep with
  | abort =>
    refine h.keep hrun ?_ ?_
    · exact ⟨rfl, Iff.rfl⟩
    · exact fun hracing => hracing
  | exit code hrunning =>
    refine h.keep hrun ?_ ?_
    · exact ⟨rfl, Iff.rfl⟩
    · exact fun hracing => hracing
  | lookAtSignal hlooking => exact h.lookAtSignal hrun haccounted hlooking
  | observeSignal hclaiming =>
    have hbefore := h.looked
    refine ⟨fun hover => ?_, ?_⟩
    · rw [overtaken_concat hrun] at hover
      have hcause := h.overtaken (hover.resolve_right (by simp))
      simp [Process.claim, hcause]
    · rw [overtaken_concat hrun, lookFirst_concat]
      cases hcause : p.cause <;> simp [hcause, hclaiming, Process.claim] at hbefore ⊢ <;> exact hbefore
  | turn _ hbefore phase hafter hevent =>
    refine h.keep hrun ?_ ?_
    · exact ⟨rfl, iff_of_false hafter.2 hbefore.2⟩
    · rcases hevent with rfl | rfl | rfl <;> exact fun hracing => hracing
  | observeExit code hbefore hexit =>
    refine h.keep hrun ?_ ?_
    · exact ⟨rfl, iff_of_false (by simp) hbefore.2⟩
    · exact fun hracing => hracing
  | classify code hexit =>
    refine h.keep hrun ?_ ?_
    · exact ⟨rfl, by simp [hexit]⟩
    · exact fun hracing => hracing
  | send outcome hsending =>
    refine h.keep hrun ?_ ?_
    · exact ⟨rfl, by simp [hsending]⟩
    · exact fun hracing => hracing
  | wait _ waits hreturned hevent =>
    refine h.keep hrun ?_ ?_
    · exact ⟨rfl, Iff.rfl⟩
    · rcases hevent with rfl | ⟨i, rfl⟩ | ⟨i, rfl⟩ <;> exact fun hracing => hracing
  | callTerminate =>
    refine h.keep hrun ?_ ?_
    · exact ⟨rfl, Iff.rfl⟩
    · exact fun hracing => hracing
  | claimTerminate i settled hclaiming =>
    have hbefore := h.looked
    refine ⟨fun hover => ?_, ?_⟩
    · rw [overtaken_concat hrun] at hover
      rcases hover with hover | ⟨-, -, hcause⟩
      · simp [Process.claim, h.overtaken hover]
      · simp [Process.claim, hcause]
    · rw [overtaken_concat hrun, lookFirst_concat]
      cases hcause : p.cause <;> simp [hcause, Process.claim] at hbefore ⊢ <;> tauto
  | stepTerminate i phase phase' handles hthere hclosing =>
    refine h.keep hrun ?_ ?_
    · exact ⟨rfl, Iff.rfl⟩
    · exact fun hracing => hracing
  | onPipe pipe e =>
    refine h.keep hrun ?_ ?_
    · exact ⟨rfl, Iff.rfl⟩
    · exact fun hracing => hracing

/-- Once a `wait` has returned: the claim of the monitor was first exactly when
its look was, unless a `terminate` came between. -/
theorem claimFirst_iff {hasSignal : Bool} {handles : Handles} {es : List Event} {p : Process}
    (hrun : run Process.step (spawned hasSignal handles) es = some p) {i : ℕ} {r : Outcome}
    (hr : p.waits[i]? = some (WaitPhase.returned r)) :
    (ClaimFirst es ↔ hasSignal = true ∧ LookFirst es) ↔ ¬ Overtaken hasSignal handles es := by
  have hall := @run_history _ _ Process.step
    (fun es p => (run Process.step (spawned hasSignal handles) es = some p ∧ Accounted hasSignal es p) ∧
      Looked hasSignal handles es p) _
    ⟨⟨rfl, accounted_spawned hasSignal handles⟩, looked_spawned hasSignal handles⟩
    (fun es p e p' h hstep =>
      ⟨⟨run_append.mpr ⟨p, h.1.1, run_cons.mpr ⟨p', hstep, rfl⟩⟩, h.1.2.step (stepped hstep)⟩,
        h.2.step h.1.1 h.1.2 (stepped hstep)⟩) es p hrun
  obtain ⟨⟨-, haccounted⟩, hlooked⟩ := hall
  have hsettled := (accounted_run hrun).2
  have hdone := (hsettled.sent r (hsettled.returned i r hr)).1
  have hiff := hlooked.looked
  simp only [hdone, reduceCtorEq, false_and, false_or] at hiff
  rw [hiff, ← haccounted.signal]
  constructor
  · intro hsame hover
    have hcause := hsame.mpr (Or.inr hover)
    rw [hlooked.overtaken hover] at hcause
    cases hcause
  · intro hnot
    simp [hnot]

/-! ## The pipes -/

/-- A piped stream has a closed end. -/
def PipeShut (h : Handles) (pipe : Pipe) : Prop := ∀ s, h.get pipe = some s → s.Shut

theorem shut_iff (h : Handles) : h.Shut ↔ PipeShut h .stdout ∧ PipeShut h .stderr := by
  constructor
  · exact fun hshut => ⟨hshut .stdout, hshut .stderr⟩
  · rintro ⟨hstdout, hstderr⟩ pipe
    cases pipe with
    | stdout => exact hstdout
    | stderr => exact hstderr

theorem PipeShut.onPipe {h : Handles} {pipe : Pipe} (hshut : PipeShut h pipe) {f : ReadStream → ReadStream}
    (hf : ∀ s, s.Shut → (f s).Shut) (other : Pipe) : PipeShut (h.onPipe other f) pipe := by
  intro s hs
  rcases Handles.get_onPipe_cases hs with ⟨-, old, hold, rfl⟩ | ⟨-, hold⟩
  · exact hf old (hshut old hold)
  · exact hshut s hold

theorem pipeShut_close (h : Handles) (pipe : Pipe) : PipeShut (h.onPipe pipe ReadStream.close) pipe := by
  intro s hs
  rcases Handles.get_onPipe_cases hs with ⟨-, old, -, rfl⟩ | ⟨hne, -⟩
  · exact ReadStream.shut_close old
  · exact absurd rfl hne

/-- What a call of `terminate` on a settled process has closed so far. -/
def Closed (h : Handles) : TerminatePhase → Prop
  | .called => True
  | .claiming settled => settled = true
  | .closingStdout => True
  | .closingStderr => PipeShut h .stdout
  | .closingStdin => PipeShut h .stdout ∧ PipeShut h .stderr
  | .returned => h.Shut

theorem Closed.mono {h h' : Handles} (hmono : ∀ pipe, PipeShut h pipe → PipeShut h' pipe) {phase : TerminatePhase}
    (hclosed : Closed h phase) : Closed h' phase := by
  cases phase with
  | called => trivial
  | claiming settled => exact hclosed
  | closingStdout => trivial
  | closingStderr => exact hmono _ hclosed
  | closingStdin => exact ⟨hmono _ hclosed.1, hmono _ hclosed.2⟩
  | returned =>
    rw [Closed, shut_iff] at hclosed ⊢
    exact ⟨hmono _ hclosed.1, hmono _ hclosed.2⟩

/-- A closed end stays closed. -/
theorem pipeShut_step {p p' : Process} {e : Event} (hstep : Stepped p e p') (pipe : Pipe)
    (h : PipeShut p.handles pipe) : PipeShut p'.handles pipe := by
  cases hstep with
  | stepTerminate i phase phase' handles hthere hclosing =>
    cases hclosing with
    | called => exact h
    | stdout => exact h.onPipe (fun s _ => s.shut_close) _
    | stderr => exact h.onPipe (fun s _ => s.shut_close) _
    | stdin =>
      intro s hs
      exact h s (by simpa using hs)
  | onPipe other e => exact h.onPipe (fun s hs => hs.step e) other
  | _ => exact h

/-- A call of `terminate` that began once the process had settled. -/
def Releasing (t : ℕ) (p : Process) : Prop :=
  p.outcome.isSome = true ∧ ∃ phase, p.terminates[t]? = some phase ∧ Closed p.handles phase

/-- One operation of a call closes what the next phase says. -/
theorem Closing.closed {p : Process} {phase phase' : TerminatePhase} {handles : Handles}
    (h : Closing p phase handles phase') (hsettled : p.outcome.isSome = true) (hclosed : Closed p.handles phase) :
    Closed handles phase' := by
  cases h with
  | called => exact hsettled
  | stdout => exact pipeShut_close _ _
  | stderr => exact ⟨PipeShut.onPipe hclosed (fun s _ => s.shut_close) _, pipeShut_close _ _⟩
  | stdin =>
    rw [Closed, shut_iff]
    refine ⟨fun s hs => hclosed.1 s ?_, fun s hs => hclosed.2 s ?_⟩
    · simpa using hs
    · simpa using hs

theorem Releasing.step {t : ℕ} {p p' : Process} (h : Releasing t p) {e : Event} (hstep : Stepped p e p') :
    Releasing t p' := by
  obtain ⟨hsettled, phase, hphase, hclosed⟩ := h
  have hlater : Closed p'.handles phase := hclosed.mono (pipeShut_step hstep)
  have hlt : t < p.terminates.length := (List.getElem?_eq_some_iff.mp hphase).1
  cases hstep with
  | send outcome hsending => exact ⟨rfl, phase, hphase, hlater⟩
  | callTerminate => exact ⟨hsettled, phase, by rw [List.getElem?_append_left hlt, hphase], hlater⟩
  | claimTerminate i settled hclaiming =>
    by_cases heq : i = t
    · subst heq
      rw [hclaiming] at hphase
      cases hphase
      refine ⟨hsettled, .closingStdout, ?_, trivial⟩
      have hyes : settled = true := hclosed
      rw [List.getElem?_set_self hlt, if_pos hyes]
    · exact ⟨hsettled, phase, by rw [List.getElem?_set_ne heq, hphase], hlater⟩
  | stepTerminate i before phase' handles hthere hclosing =>
    by_cases heq : i = t
    · subst heq
      rw [hthere] at hphase
      cases hphase
      exact ⟨hsettled, phase', by rw [List.getElem?_set_self hlt], hclosing.closed hsettled hclosed⟩
    · exact ⟨hsettled, phase, by rw [List.getElem?_set_ne heq, hphase], hlater⟩
  | _ => exact ⟨hsettled, phase, hphase, hlater⟩

/-- Some call of `wait` has returned. -/
def Waited (p : Process) : Prop := ∃ (i : ℕ) (r : Outcome), p.waits[i]? = some (WaitPhase.returned r)

/-- Behind the call of `terminate` that begins here, once it returns, the piped streams end. -/
def Releases (p : Process) : Prop :=
  ∀ (es : List Event) (p' : Process), run Process.step p (.callTerminate :: es) = some p' →
    p'.terminates[p.terminates.length]? = some TerminatePhase.returned → p'.handles.End

theorem releases {p : Process} (hsettled : Settled p) (hwaited : Waited p) : Releases p := by
  intro es p' hrun hreturned
  obtain ⟨i, r, hr⟩ := hwaited
  obtain ⟨p₁, hcall, hrest⟩ := run_cons.mp hrun
  cases hcall
  have hfirst : Releasing p.terminates.length { p with terminates := p.terminates ++ [.called] } :=
    ⟨by simp [hsettled.returned i r hr], .called, by simp, trivial⟩
  obtain ⟨-, phase, hphase, hclosed⟩ :=
    run_preserves (fun _ _ _ h hstep => Releasing.step h (stepped hstep)) hrest hfirst
  rw [hreturned] at hphase
  cases hphase
  exact (Handles.end_iff _).mpr hclosed

/-- `wait` gives one result, the aborted error exactly when the monitor's claim was
first and otherwise the exit status, and a `terminate` releases the pipes. -/
structure Meets (es : List Event) (p : Process) : Prop where
  one : ∃ r : Outcome, (∀ (i : ℕ) (r' : Outcome), p.waits[i]? = some (WaitPhase.returned r') → r' = r) ∧
    (ClaimFirst es → r = .error ⟨"operation aborted"⟩) ∧
    (¬ ClaimFirst es → ∃ code, .exit code ∈ es ∧ r = .ok ⟨code⟩)
  releases : Releases p

theorem meets {hasSignal : Bool} {handles : Handles} {es : List Event} {p : Process}
    (hrun : run Process.step (spawned hasSignal handles) es = some p) (hwaited : Waited p) : Meets es p := by
  obtain ⟨-, hsettled⟩ := accounted_run hrun
  have hreleases := releases hsettled hwaited
  obtain ⟨i, r, hr⟩ := hwaited
  exact ⟨⟨r, settles hrun hr⟩, hreleases⟩

end Rust

/-! ## Both bindings -/

/-- In every run of a spawned process in which a `wait` has returned: the result is
one, and fixed by who was first; and a `terminate` that begins now releases the
pipes, in Python if it is the first one or nothing is left to release. -/
theorem settlement (watched : Bool) (handles : Handles) :
    (∀ (es : List Python.Event) (p : Python.Process),
      run Python.Process.step (Python.spawned watched handles) es = some p → Python.Waited p →
        (Python.Meets es p ↔ p.terminateCalled = false ∨ p.handles.Shut)) ∧
    (∀ (es : List Rust.Event) (p : Rust.Process),
      run Rust.Process.step (Rust.spawned watched handles) es = some p → Rust.Waited p →
        Rust.Meets es p ∧
          ((Rust.ClaimFirst es ↔ watched = true ∧ Rust.LookFirst es) ↔ ¬ Rust.Overtaken watched handles es)) := by
  constructor
  · intro es p hrun hwaited
    exact Python.meets_iff hrun hwaited
  · intro es p hrun hwaited
    refine ⟨Rust.meets hrun hwaited, ?_⟩
    obtain ⟨i, r, hr⟩ := hwaited
    exact Rust.claimFirst_iff hrun hr

/-- The piped handles of a process, of which a descendant holds the other end of `stdout`. -/
def sampleHandles : Handles where
  stdin := none
  stdout := some { received := [104, 105] }
  stderr := none

/-- A process that exits, is waited for, and then terminated for the first time. -/
theorem settlement_sample :
    (Python.Meets [.exit 3, .callWait, .stepWait 0, .stepWait 0]
      { Python.spawned true sampleHandles with
          returncode := some 3, waitResult := some (.ok ⟨some 3⟩), waits := [.returned (.ok ⟨some 3⟩)] } ↔
      false = false ∨ sampleHandles.Shut) ∧
    Rust.Meets [.exit (some 3), .observeExit, .classify, .send, .callWait, .stepWait 0]
      { Rust.spawned true sampleHandles with
          exitCode := some (some 3), monitor := .done, outcome := some (.ok ⟨some 3⟩)
          waits := [.returned (.ok ⟨some 3⟩)] } :=
  ⟨(settlement true sampleHandles).1 _ _ rfl ⟨0, _, rfl⟩, ((settlement true sampleHandles).2 _ _ rfl ⟨0, _, rfl⟩).1⟩

/-- A process in Python that was terminated while it ran: once it is waited for,
another `terminate` leaves the pipe open that a descendant holds. -/
theorem earlier_terminate_keeps_pipe :
    ∃ p : Python.Process,
      run Python.Process.step (Python.spawned false sampleHandles)
        [.callTerminate, .stepTerminate 0, .exit (-9), .callWait, .stepWait 0, .stepWait 0] = some p ∧
      Python.Waited p ∧
      ∃ p' : Python.Process, run Python.Process.step p.callTerminate [] = some p' ∧
        p'.terminates[p.terminates.length]? = some Python.TerminatePhase.returned ∧ ¬ p'.handles.End := by
  refine ⟨_, rfl, ⟨0, _, rfl⟩, _, rfl, rfl, fun hend => ?_⟩
  have hends := hend .stdout { received := [104, 105] } rfl
  exact hends.settles [.read 1, .read 0] (by decide)

end MinionAgent.Subprocess
