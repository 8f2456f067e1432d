import MinionAgent.Tools.MutationOrder

/-!
# MinionAgent.Tools.RustMutationQueue

The Rust queue (`tools/builtin/mutation_queue.rs`): a `Registration` is linked
in call order, its worker runs `acquire` to completion, and the `Entry` is held
until it is dropped.

The latches and the two maps are touched one at a time, by workers that run in
any order; no worker is cancelled.
-/

namespace MinionAgent

/-- `FsError`. -/
structure RustFsError where
  code : FsErrorCode
  message : String
  path : Option String
deriving DecidableEq

/-- The target `acquire` looks up, given the answers of `canonical_path` and
`absolute_path`. -/
def registrationTarget (canonical absolute : Except RustFsError String) : Except RustFsError String :=
  match canonical with
  | .ok target => .ok target
  | .error e => if e.code = .notFound ∨ e.code = .notDirectory ∨ e.code = .notSupported then absolute else .error e

/-- Where a worker is. -/
inductive WorkerPhase
  /-- `acquire` has yet to see that the registration before is released. -/
  | registered
  /-- `acquire` awaits the provider. -/
  | resolving
  /-- `acquire` fails, and drops the registration. -/
  | failing
  /-- The same, after `release`. -/
  | failingReleased
  /-- `acquire` has linked its entry, and drops the registration. -/
  | linked
  /-- The same, after `release`. -/
  | linkedReleased
  /-- `acquire` has yet to see that the entry before is released. -/
  | queued
  /-- The entry is held. -/
  | held
  /-- The entry is being dropped, after `release`. -/
  | dropping
  /-- Both the registration and the entry are gone. -/
  | gone
deriving DecidableEq

/-- A registration with its worker.  `registered` is the latch of the
registration and `released` that of the entry. -/
abbrev Worker : Type := Member QueueRequest WorkerPhase QueueScope

/-- `Queues`, with the workers in the order of their registrations and those
that got to hold their entry in the order in which they did. -/
abbrev Queues : Type := TwoStage QueueRequest WorkerPhase QueueScope

/-- What a worker does next. -/
inductive WorkerEvent
  | register (provider : Nat) (path : String)
  | resolve (i : Nat)
  | link (i : Nat) (canonical absolute : Except RustFsError String)
  | releaseRegistration (i : Nat)
  | unlinkRegistration (i : Nat)
  | hold (i : Nat)
  | releaseEntry (i : Nat)
  | unlinkEntry (i : Nat)

namespace Queues

open TwoStage

/-- `Registration::new`. -/
def register (q : Queues) (provider : Nat) (path : String) : Queues :=
  { q with
    members := q.members ++
      [{ data := { provider, path }, previous := q.registration, phase := .registered, begun := false }]
    registration := some q.members.length }

/-- The entry takes the place of the last one of its key. -/
def insert (q : Queues) (i : Nat) (key : QueueScope) : Queues :=
  { q.modify i fun worker => { worker with phase := .linked, scope := some key, current := q.tails key } with
    tails := Function.update q.tails key (some i) }

/-- `acquire` returns its entry. -/
def hold (q : Queues) (i : Nat) : Queues :=
  { q.modify i fun worker => { worker with phase := .held, started := true } with starts := q.starts ++ [i] }

/-- The registration goes that is still the last one. -/
def forget (q : Queues) (i : Nat) : Queues :=
  if q.registration = some i then { q with registration := none } else q

/-- The entry goes that is still the last one of its key. -/
def remove (q : Queues) (i : Nat) (key : QueueScope) : Queues :=
  if q.tails key = some i then { q with tails := Function.update q.tails key none } else q

/-- What a worker does. -/
def work (q : Queues) (worker : Worker) : WorkerEvent → Option Queues
  | .register _ _ => none
  | .resolve i =>
    if worker.phase = .registered ∧ q.isDone Member.registered worker.previous then
      some (q.modify i fun worker => { worker with phase := .resolving, begun := true })
    else none
  | .link i canonical absolute =>
    if worker.phase = .resolving then
      match registrationTarget canonical absolute with
      | .error _ => some (q.modify i fun worker => { worker with phase := .failing })
      | .ok target => some (insert q i (worker.data.provider, target))
    else none
  | .releaseRegistration i =>
    match worker.phase with
    | .failing => some (q.modify i fun worker => { worker with phase := .failingReleased, registered := true })
    | .linked => some (q.modify i fun worker => { worker with phase := .linkedReleased, registered := true })
    | _ => none
  | .unlinkRegistration i =>
    match worker.phase with
    | .failingReleased => some ((forget q i).modify i fun worker => { worker with phase := .gone })
    | .linkedReleased => some ((forget q i).modify i fun worker => { worker with phase := .queued })
    | _ => none
  | .hold i =>
    if worker.phase = .queued ∧ q.isDone Member.released worker.current then some (hold q i) else none
  | .releaseEntry i =>
    if worker.phase = .held then some (q.modify i fun worker => { worker with phase := .dropping, released := true })
    else none
  | .unlinkEntry i =>
    match worker.phase, worker.scope with
    | .dropping, some key => some ((remove q i key).modify i fun worker => { worker with phase := .gone })
    | _, _ => none

end Queues

/-- The worker an event is about, but for a new one. -/
def WorkerEvent.target : WorkerEvent → Option Nat
  | .register _ _ => none
  | .resolve i | .link i _ _ | .releaseRegistration i | .unlinkRegistration i | .hold i | .releaseEntry i
  | .unlinkEntry i => some i

namespace Queues

open TwoStage

/-- One event. -/
def step (q : Queues) : WorkerEvent → Option Queues
  | .register provider path => some (register q provider path)
  | event => do
    let i ← event.target
    let worker ← q.members[i]?
    work q worker event

/-- The state after a list of events. -/
def run (es : List WorkerEvent) : Option Queues := Transition.run step {} es

/-- The entry of a worker is held. -/
def IsHeld (phase : WorkerPhase) : Prop := phase = .held

/-- Every registration and every entry has been dropped. -/
def AllGone (q : Queues) : Prop := ∀ (i : Nat) (worker : Worker), q.members[i]? = some worker → worker.phase = .gone

/-! ## Invariants -/

/-- What a worker's phase says of its fields. -/
def Fits (worker : Worker) : Prop :=
  match worker.phase with
  | .registered => worker.begun = false ∧ worker.registered = false ∧ worker.scope = none ∧ worker.released = false ∧
      worker.started = false
  | .resolving | .failing => worker.begun = true ∧ worker.registered = false ∧ worker.scope = none ∧
      worker.released = false ∧ worker.started = false
  | .failingReleased => worker.begun = true ∧ worker.registered = true ∧ worker.scope = none
  | .linked => worker.begun = true ∧ worker.registered = false ∧ worker.scope.isSome ∧ worker.released = false ∧
      worker.started = false
  | .linkedReleased | .queued => worker.begun = true ∧ worker.registered = true ∧ worker.scope.isSome ∧
      worker.released = false ∧ worker.started = false
  | .held => worker.begun = true ∧ worker.registered = true ∧ worker.scope.isSome ∧ worker.released = false ∧
      worker.started = true
  | .dropping => worker.begun = true ∧ worker.registered = true ∧ worker.scope.isSome ∧ worker.released = true
  | .gone => worker.begun = true ∧ worker.registered = true

/-- The last worker of a key is not gone. -/
def TailsKept (q : Queues) : Prop :=
  ∀ (key : QueueScope) (i : Nat) (worker : Worker), q.tails key = some i → q.members[i]? = some worker →
    worker.phase ≠ .gone

/-- What the queues keep. -/
structure Sound (q : Queues) : Prop where
  serial : Serial Fits q
  tails : TailsKept q

theorem sound_empty : Sound ({} : Queues) := ⟨serial_empty, by simp [TailsKept]⟩

/-! ## The tails -/

section Tails

variable {q q' : Queues} {i : Nat} {worker worker' : Worker}

/-- A worker that is not gone keeps the tails. -/
theorem TailsKept.changed (h : TailsKept q) (hchanged : Changed q q' i worker worker') (htails : q'.tails = q.tails)
    (hphase : worker'.phase ≠ .gone) : TailsKept q' := by
  intro key j n hkey hj
  rw [htails] at hkey
  obtain ⟨n₀, hj₀, ⟨-, -, rfl⟩ | ⟨-, rfl⟩⟩ := hchanged.exists_before hj
  · exact hphase
  · exact h key j n hkey hj₀

/-- A worker may go that is the last one of no key. -/
theorem TailsKept.gone (h : TailsKept q) (hchanged : Changed q q' i worker worker') (htails : q'.tails = q.tails)
    (hnot : ∀ key, q.tails key ≠ some i) : TailsKept q' := by
  intro key j n hkey hj
  rw [htails] at hkey
  obtain ⟨n₀, hj₀, ⟨rfl, -, -⟩ | ⟨-, rfl⟩⟩ := hchanged.exists_before hj
  · exact absurd hkey (hnot key)
  · exact h key j n hkey hj₀

/-- The last worker of a key is queued there. -/
theorem scope_of_tail (h : Serial Fits q) (hi : q.members[i]? = some worker) {key : QueueScope}
    (hkey : q.tails key = some i) : worker.scope = some key := by
  have hscope := (h.fifo.tail_max key i hkey).1
  rwa [turns_scope hi] at hscope

/-- Once everything is dropped, no key has an entry. -/
theorem Sound.no_entry (h : Sound q) (hgone : AllGone q) (key : QueueScope) : q.tails key = none := by
  cases htail : q.tails key with
  | none => rfl
  | some i =>
    have hscope := (h.serial.fifo.tail_max key i htail).1
    obtain ⟨worker, hi, -⟩ := Option.bind_eq_some_iff.mp hscope
    exact absurd (hgone i worker hi) (h.tails key i worker htail hi)

end Tails

/-! ## Operations -/

section Operations

variable {q : Queues} {i : Nat} {worker : Worker}

/-- A change of nothing but the phase. -/
theorem serial_phase (h : Serial Fits q) (hi : q.members[i]? = some worker) {phase : WorkerPhase}
    (hfits : Fits { worker with phase := phase }) :
    Serial Fits (q.modify i fun worker => { worker with phase := phase }) :=
  h.step (changed_modify hi rfl) hfits id id .inl rfl rfl rfl rfl rfl rfl rfl

/-- The latch of the registration is released; it has begun, so that all before
it are released. -/
theorem sound_releaseRegistration (h : Sound q) (hi : q.members[i]? = some worker) (hbegun : worker.begun = true)
    {phase : WorkerPhase} (hfits : Fits { worker with phase := phase, registered := true }) (hphase : phase ≠ .gone) :
    Sound (q.modify i fun worker => { worker with phase := phase, registered := true }) := by
  have hchanged := changed_modify hi (f := fun worker => { worker with phase := phase, registered := true }) rfl
  refine ⟨h.serial.step hchanged hfits id (fun _ => rfl) (fun _ => .inl (.inl hbegun)) rfl rfl rfl rfl rfl rfl rfl, ?_⟩
  exact h.tails.changed hchanged rfl hphase

/-- A registration goes that has been released. -/
theorem sound_forget (h : Sound q) (hi : q.members[i]? = some worker) (hregistered : worker.registered = true) :
    Sound (forget q i) ∧ (forget q i).members = q.members ∧ (forget q i).tails = q.tails := by
  rw [forget]
  split
  case isTrue hlast => exact ⟨⟨h.serial.unlink hi hregistered hlast rfl rfl rfl rfl, h.tails⟩, rfl, rfl⟩
  case isFalse => exact ⟨h, rfl, rfl⟩

/-- An entry goes that has been released, and is the last one of no key
then. -/
theorem sound_remove (h : Sound q) (hi : q.members[i]? = some worker) (hreleased : worker.released = true)
    {key : QueueScope} (hscope : worker.scope = some key) :
    Sound (remove q i key) ∧ (remove q i key).members = q.members ∧ ∀ k, (remove q i key).tails k ≠ some i := by
  have honly : ∀ k, q.tails k = some i → k = key := fun k hk => by
    have hk' := scope_of_tail h.serial hi hk
    rw [hscope] at hk'
    exact (Option.some.inj hk').symm
  rw [remove]
  split
  case isTrue hlast =>
    have hother : ∀ k, k ≠ key → Function.update q.tails key none k = q.tails k :=
      fun k hk => Function.update_of_ne hk ..
    have hself : Function.update q.tails key none key = none := Function.update_self ..
    refine ⟨⟨h.serial.clear hi hreleased hlast rfl rfl rfl hself hother, fun k j n hk hj => ?_⟩, rfl, fun k hk => ?_⟩
    · have hne : k ≠ key := by
        rintro rfl
        simp at hk
      exact h.tails k j n ((hother k hne).symm.trans hk) hj
    · have hne : k ≠ key := by
        rintro rfl
        simp at hk
      exact hne (honly k ((hother k hne).symm.trans hk))
  case isFalse hlast =>
    refine ⟨h, rfl, fun k hk => hlast ?_⟩
    rw [← honly k hk]
    exact hk

/-- An entry is linked behind the last one of its key. -/
theorem sound_insert (h : Sound q) (hi : q.members[i]? = some worker) (hphase : worker.phase = .resolving)
    (key : QueueScope) : Sound (insert q i key) := by
  have hfits := h.serial.fits i worker hi
  rw [Fits, hphase] at hfits
  obtain ⟨hbegun, hregistered, hnone, hreleased, hstarted⟩ := hfits
  have hmodified := changed_modify hi (f := fun worker =>
    { worker with phase := .linked, scope := some key, current := q.tails key }) rfl
  have hself : (insert q i key).tails key = some i := Function.update_self ..
  have hother : ∀ k, k ≠ key → (insert q i key).tails k = q.tails k := fun k hk => Function.update_of_ne hk ..
  refine ⟨h.serial.enqueue (hmodified.congr rfl) ⟨hbegun, hregistered, rfl, hreleased, hstarted⟩ hbegun
    hregistered hnone
    hreleased hstarted hbegun rfl rfl rfl hreleased hstarted hself hother rfl, fun k j n hk hj => ?_⟩
  have hchanged : Changed q (insert q i key) i worker _ := hmodified.congr rfl
  obtain ⟨n₀, hj₀, ⟨-, -, rfl⟩ | ⟨hne, rfl⟩⟩ := hchanged.exists_before hj
  · simp
  · have hneKey : k ≠ key := by
      rintro rfl
      exact hne (Option.some.inj (hk.symm.trans hself))
    exact h.tails k j n ((hother k hneKey).symm.trans hk) hj₀

/-- An entry is held once the one before it is released. -/
theorem sound_hold (h : Sound q) (hi : q.members[i]? = some worker) (hphase : worker.phase = .queued)
    (hdone : q.isDone Member.released worker.current = true) : Sound (hold q i) := by
  have hfits := h.serial.fits i worker hi
  rw [Fits, hphase] at hfits
  obtain ⟨hbegun, hregistered, hsome, hreleased, hstarted⟩ := hfits
  have hmodified := changed_modify hi (f := fun worker => { worker with phase := .held, started := true }) rfl
  have hchanged : Changed q (hold q i) i worker _ := hmodified.congr rfl
  refine ⟨?_, h.tails.changed hchanged rfl (by simp)⟩
  exact h.serial.begin hchanged ⟨hbegun, hregistered, hsome, hreleased, rfl⟩ rfl rfl rfl rfl rfl rfl hstarted rfl
    rfl rfl
    hsome hreleased (h.serial.turn hi hsome hdone)

/-- The latch of an entry that is held is released. -/
theorem sound_releaseEntry (h : Sound q) (hi : q.members[i]? = some worker) (hphase : worker.phase = .held) :
    Sound (q.modify i fun worker => { worker with phase := .dropping, released := true }) := by
  have hfits := h.serial.fits i worker hi
  rw [Fits, hphase] at hfits
  obtain ⟨hbegun, hregistered, hsome, -, hstarted⟩ := hfits
  have hchanged := changed_modify hi (f := fun worker => { worker with phase := .dropping, released := true }) rfl
  have hturn := (h.serial.logged.turn i ((h.serial.started i worker hi).mp hstarted)).2
  refine ⟨?_, h.tails.changed hchanged rfl (by simp)⟩
  exact h.serial.release hchanged ⟨hbegun, hregistered, hsome, rfl⟩ rfl rfl rfl rfl rfl rfl rfl rfl rfl hturn

/-- A registration is linked behind the last one. -/
theorem sound_register (h : Sound q) (provider : Nat) (path : String) : Sound (register q provider path) := by
  refine ⟨h.serial.enter ?_ rfl rfl rfl rfl rfl rfl (by simp) rfl rfl rfl rfl, fun key j n hkey hj => ?_⟩
  · simp [Fits]
  · rcases Table.getElem?_concat_cases hj with hj | ⟨-, rfl⟩
    · exact h.tails key j n hkey hj
    · simp

end Operations

/-! ## Runs -/

/-- A worker goes on. -/
theorem sound_work {q q' : Queues} {event : WorkerEvent} (h : Sound q) {i : Nat} (htarget : event.target = some i)
    {worker : Worker} (hi : q.members[i]? = some worker) (hwork : work q worker event = some q') : Sound q' := by
  have hfits := h.serial.fits i worker hi
  cases event with
  | register provider path => simp [work] at hwork
  | resolve j =>
    cases htarget
    simp only [work] at hwork
    split at hwork
    case isFalse => contradiction
    case isTrue hguard =>
      cases hwork
      rw [Fits, hguard.1] at hfits
      have hchanged := changed_modify hi (f := fun worker => { worker with phase := .resolving, begun := true }) rfl
      refine ⟨h.serial.step hchanged ⟨rfl, hfits.2⟩ (fun _ => rfl) id (fun _ => .inr ?_) rfl rfl rfl rfl rfl rfl rfl,
        h.tails.changed hchanged rfl (by simp)⟩
      exact fun k n hk hlt => h.serial.earlier_settled hi hguard.2 hk hlt
  | link j canonical absolute =>
    cases htarget
    simp only [work] at hwork
    split at hwork
    case isFalse => contradiction
    case isTrue hphase =>
      split at hwork
      case h_1 =>
        cases hwork
        rw [Fits, hphase] at hfits
        exact ⟨serial_phase h.serial hi hfits, h.tails.changed (changed_modify hi rfl) rfl (by simp)⟩
      case h_2 target _ =>
        cases hwork
        exact sound_insert h hi hphase _
  | releaseRegistration j =>
    cases htarget
    simp only [work] at hwork
    split at hwork
    case h_1 hphase =>
      cases hwork
      rw [Fits, hphase] at hfits
      exact sound_releaseRegistration h hi hfits.1 ⟨hfits.1, rfl, hfits.2.2.1⟩ (by simp)
    case h_2 hphase =>
      cases hwork
      rw [Fits, hphase] at hfits
      exact sound_releaseRegistration h hi hfits.1 ⟨hfits.1, rfl, hfits.2.2⟩ (by simp)
    case h_3 => contradiction
  | unlinkRegistration j =>
    cases htarget
    simp only [work] at hwork
    split at hwork
    case h_1 hphase =>
      cases hwork
      rw [Fits, hphase] at hfits
      obtain ⟨hbegun, hregistered, hnone⟩ := hfits
      obtain ⟨hforgot, hmembers, htails⟩ := sound_forget h hi hregistered
      have hi' : (forget q i).members[i]? = some worker := by rw [hmembers]; exact hi
      -- it never had an entry
      refine ⟨serial_phase hforgot.serial hi' ⟨hbegun, hregistered⟩,
        hforgot.tails.gone (changed_modify hi' rfl) rfl fun key hkey => ?_⟩
      have hscope := scope_of_tail hforgot.serial hi' hkey
      simp [hnone] at hscope
    case h_2 hphase =>
      cases hwork
      rw [Fits, hphase] at hfits
      obtain ⟨hforgot, hmembers, htails⟩ := sound_forget h hi hfits.2.1
      have hi' : (forget q i).members[i]? = some worker := by rw [hmembers]; exact hi
      exact ⟨serial_phase hforgot.serial hi' hfits, hforgot.tails.changed (changed_modify hi' rfl) rfl (by simp)⟩
    case h_3 => contradiction
  | hold j =>
    cases htarget
    simp only [work] at hwork
    split at hwork
    case isFalse => contradiction
    case isTrue hguard =>
      cases hwork
      exact sound_hold h hi hguard.1 hguard.2
  | releaseEntry j =>
    cases htarget
    simp only [work] at hwork
    split at hwork
    case isFalse => contradiction
    case isTrue hphase =>
      cases hwork
      exact sound_releaseEntry h hi hphase
  | unlinkEntry j =>
    cases htarget
    simp only [work] at hwork
    split at hwork
    case h_2 => contradiction
    case h_1 key hphase hscope =>
      cases hwork
      rw [Fits, hphase] at hfits
      obtain ⟨hremoved, hmembers, hnot⟩ := sound_remove h hi hfits.2.2.2 hscope
      have hi' : (remove q i key).members[i]? = some worker := by rw [hmembers]; exact hi
      exact ⟨serial_phase hremoved.serial hi' ⟨hfits.1, hfits.2.1⟩,
        hremoved.tails.gone (changed_modify hi' rfl) rfl hnot⟩

theorem step_of_target {q : Queues} {event : WorkerEvent} {i : Nat} (h : event.target = some i) :
    step q event = (q.members[i]?).bind (work q · event) := by
  cases event with
  | register provider path => simp [WorkerEvent.target] at h
  | resolve j | link j _ _ | releaseRegistration j | unlinkRegistration j | hold j | releaseEntry j | unlinkEntry j =>
    cases h
    rfl

/-- Every step keeps the invariants. -/
theorem sound_step {q q' : Queues} {event : WorkerEvent} (h : Sound q) (hstep : step q event = some q') : Sound q' := by
  cases htarget : event.target with
  | none =>
    cases event with
    | register provider path =>
      cases hstep
      exact sound_register h provider path
    | resolve j | link j _ _ | releaseRegistration j | unlinkRegistration j | hold j | releaseEntry j | unlinkEntry j =>
      simp [WorkerEvent.target] at htarget
  | some i =>
    rw [step_of_target htarget] at hstep
    obtain ⟨worker, hi, hwork⟩ := Option.bind_eq_some_iff.mp hstep
    exact sound_work h htarget hi hwork

/-- And so does every run. -/
theorem sound_run {q : Queues} {es : List WorkerEvent} (h : run es = some q) : Sound q :=
  Transition.run_preserves (fun _ _ _ hsound hstep => sound_step hsound hstep) h sound_empty

/-- What the invariants guarantee. -/
theorem Sound.serialized {q : Queues} (h : Sound q) : Serialized IsHeld q :=
  h.serial.serialized fun worker hfits hheld => by
    rw [IsHeld] at hheld
    rw [Fits, hheld] at hfits
    exact ⟨hfits.2.2.2.2, hfits.2.2.2.1⟩

end Queues

/-! ## Both queues -/

/-- Without a cancellation that hits a call while an earlier registration is
pending, the loop's queue serializes its calls in every state of every run; after
such a cancellation one more event can break this.  The workers' queue always
serializes them, and keeps no entry behind. -/
theorem mutation_queue_serialized (es : List QueueEvent) (q : MutationQueue)
    (hconsiderate : Transition.Along MutationQueue.step MutationQueue.Considerate {} es)
    (hrun : MutationQueue.run es = some q) (ws : List WorkerEvent) (r : Queues) (hworkers : Queues.run ws = some r) :
    TwoStage.Serialized MutationQueue.IsRunning q ∧
    (∀ (i : Nat) (q' : MutationQueue), MutationQueue.step q (.cancel i) = some q' →
      ¬ MutationQueue.Considerate q (.cancel i) →
      ∃ event q'', MutationQueue.step q' event = some q'' ∧ ¬ TwoStage.Serialized MutationQueue.IsRunning q'') ∧
    TwoStage.Serialized Queues.IsHeld r ∧ (Queues.AllGone r → ∀ key, r.tails key = none) := by
  have hserial : TwoStage.Serial MutationQueue.Fits q :=
    Transition.run_preserves_along (fun _ _ _ h hconsiderate hstep => MutationQueue.serial_step h hconsiderate hstep)
      hrun hconsiderate TwoStage.serial_empty
  have hsound := Queues.sound_run hworkers
  refine ⟨MutationQueue.serialized_of_serial hserial, fun i q' hstep hinconsiderate => ?_, hsound.serialized,
    hsound.no_entry⟩
  exact MutationQueue.exists_overtaking hserial hinconsiderate hstep

/-- Three calls for one file, the second of which is cancelled while queued. -/
def cancelledWhileQueued : List QueueEvent :=
  [.call 0 "a", .resolve 0 (.ok "/a") (.ok "/a"), .call 0 "a", .resolve 1 (.ok "/a") (.ok "/a"), .cancel 1,
    .call 0 "a", .resolve 2 (.error .notFound) (.ok "/a"), .finish 0, .release 1, .start 2]

/-- A worker from its registration to the end of its entry. -/
def wholeWorker : List WorkerEvent :=
  [.register 0 "a", .resolve 0, .link 0 (.ok "/a") (.ok "/a"), .releaseRegistration 0, .unlinkRegistration 0, .hold 0,
    .releaseEntry 0, .unlinkEntry 0]

/-- A call that is cancelled while queued does not let the next one overtake,
and a worker that is done leaves no entry. -/
theorem mutation_queue_serialized_queued :
    ∃ q r, MutationQueue.run cancelledWhileQueued = some q ∧ q.starts = [0, 2] ∧
      TwoStage.Serialized MutationQueue.IsRunning q ∧
      Queues.run wholeWorker = some r ∧ r.starts = [0] ∧ r.tails (0, "/a") = none := by
  have hconsiderate : Transition.Along MutationQueue.step MutationQueue.Considerate {} cancelledWhileQueued := by
    refine And.intro trivial (And.intro trivial (And.intro trivial (And.intro trivial (And.intro ?_ ?_))))
    · intro call hcall hwaiting
      cases hcall
      simp at hwaiting
    · exact ⟨trivial, trivial, trivial, trivial, trivial, trivial⟩
  have hserialized := mutation_queue_serialized cancelledWhileQueued _ hconsiderate rfl wholeWorker _ rfl
  refine ⟨_, _, rfl, rfl, hserialized.1, rfl, rfl, hserialized.2.2.2 ?_ _⟩
  intro i worker hi
  cases i with
  | zero =>
    cases hi
    rfl
  | succ i => exact absurd hi (by rintro ⟨⟩)

end MinionAgent
