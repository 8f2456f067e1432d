import MinionAgent.Library.Cells
import MinionAgent.Library.Table

/-!
# MinionAgent.Auth.WriteQueue

What the two in-memory credential stores (`auth/store.py`, `store.rs`) have in
common: the operations of `modify` and `delete` take turns at the credential of
their provider id.

* `WriteQueue.takeTurn`, `WriteQueue.endCallback` — what an operation does at
  its turn, and when its callback ends;
* `WriteQueue.Guaranteed` — what calls may rely on;
* `WriteQueue.Orderly` — the invariant, with a rule for each operation.
-/

namespace MinionAgent

/-! ## Calls -/

/-- `modify` or `delete`. -/
inductive StoreOperation
  | modify
  | delete
deriving DecidableEq

/-- How a callback of `modify` ends. -/
inductive CallbackEnd (γ : Type)
  | value (next : Option γ)
  | raised (message : String)
  | cancelled

/-- What an operation, or a call, ends with. -/
inductive StoreOutcome (γ : Type)
  | ok (value : Option γ)
  | raised (message : String)
  | aborted
  | cancelled

/-- Where the task of an operation is: not run yet, waiting for its turn, in
its callback, or done. -/
inductive TaskPhase
  | created
  | waiting
  | running
  | done
deriving DecidableEq

/-- A call of `modify` or `delete`.  Its operation has a place in the order of
its provider id once `scope` is that id; then it waits for the release of
`previous`.  `received` is what its callback was called with, `effect` what it
committed. -/
structure StoreCall (φ γ : Type) where
  provider : String
  operation : StoreOperation
  hasSignal : Bool
  aborted : Bool
  extra : φ
  phase : TaskPhase := .created
  scope : Option String := none
  previous : Option Nat := none
  released : Bool := false
  received : Option (Option γ) := none
  ended : Option (CallbackEnd γ) := none
  effect : Option (Option γ) := none
  outcome : Option (StoreOutcome γ) := none
  result : Option (StoreOutcome γ) := none

/-- A store with its calls in order, the credential of each provider id, the
last operation of each, and the operations that took their turn in the order in
which they did. -/
structure WriteQueue (φ γ : Type) where
  calls : List (StoreCall φ γ) := []
  stored : String → Option γ
  chains : String → Option Nat := fun _ => none
  turns : List Nat := []

/-- What an operation does with the end of its callback: its outcome and what
it commits. -/
def CallbackEnd.settle {γ : Type} (current : Option γ) (aborted : Bool) :
    CallbackEnd γ → StoreOutcome γ × Option (Option γ)
  | .value next =>
    if aborted then (.aborted, none)
    else
      match next with
      | some credential => (.ok (some credential), some (some credential))
      | none => (.ok current, none)
  | .raised message => (.raised message, none)
  | .cancelled => (.cancelled, none)

/-- The outcome is that of an aborted operation, or the one without a signal. -/
theorem CallbackEnd.settle_fst {γ : Type} (callback : CallbackEnd γ) (current : Option γ) (aborted : Bool) :
    ((callback.settle current aborted).1 = .aborted ∧ aborted = true) ∨
      (callback.settle current aborted).1 = (callback.settle current false).1 := by
  cases callback with
  | value next =>
    cases aborted with
    | true => exact .inl ⟨rfl, rfl⟩
    | false => exact .inr rfl
  | raised message | cancelled => exact .inr rfl

/-- An operation whose callback raises, or that is aborted, commits nothing. -/
theorem CallbackEnd.settle_silent {γ : Type} {callback : CallbackEnd γ} {current : Option γ} {aborted : Bool}
    (h : (callback.settle current aborted).1 = .aborted ∨
      ∃ message, (callback.settle current aborted).1 = .raised message) :
    (callback.settle current aborted).2 = none := by
  cases callback with
  | value next =>
    cases aborted with
    | true => rfl
    | false => cases next <;> simp [settle] at h
  | raised message | cancelled => rfl

/-- Only a cancelled callback cancels its operation. -/
theorem CallbackEnd.settle_ne_cancelled {γ : Type} {callback : CallbackEnd γ} (h : callback ≠ .cancelled)
    (current : Option γ) (aborted : Bool) : (callback.settle current aborted).1 ≠ .cancelled := by
  cases callback with
  | value next => cases aborted <;> cases next <;> simp [settle]
  | raised message => simp [settle]
  | cancelled => exact absurd rfl h

namespace WriteQueue

variable {φ γ : Type}

/-- A change to one call. -/
def modify (q : WriteQueue φ γ) (i : Nat) (f : StoreCall φ γ → StoreCall φ γ) : WriteQueue φ γ :=
  { q with calls := q.calls.modify i f }

/-- The operation that is awaited is released. -/
def isReleased (q : WriteQueue φ γ) : Option Nat → Bool
  | none => true
  | some p => (q.calls[p]?).elim true StoreCall.released

/-- An operation gets its place behind the last one of its provider id. -/
def link (q : WriteQueue φ γ) (i : Nat) (provider : String) : WriteQueue φ γ :=
  { q.modify i fun call => { call with scope := some provider, previous := q.chains provider } with
    chains := Function.update q.chains provider (some i) }

/-- An operation takes its turn: it ends if its signal has aborted, a `delete`
removes the credential, and a `modify` calls its callback. -/
def takeTurn (q : WriteQueue φ γ) (i : Nat) (call : StoreCall φ γ) : WriteQueue φ γ :=
  if call.aborted then
    { q.modify i fun call => { call with phase := .done, outcome := some .aborted } with turns := q.turns ++ [i] }
  else
    match call.operation with
    | .delete =>
      { q.modify i fun call => { call with phase := .done, effect := some none, outcome := some (.ok none) } with
        stored := Function.update q.stored call.provider none
        turns := q.turns ++ [i] }
    | .modify =>
      { q.modify i fun call => { call with phase := .running, received := some (q.stored call.provider) } with
        turns := q.turns ++ [i] }

/-- The callback of a `modify` ends. -/
def endCallback (q : WriteQueue φ γ) (i : Nat) (call : StoreCall φ γ) (callback : CallbackEnd γ) : WriteQueue φ γ :=
  match callback.settle (call.received.getD none) call.aborted with
  | (outcome, some value) =>
    { q.modify i fun call =>
        { call with phase := .done, ended := some callback, effect := some value, outcome := some outcome } with
      stored := Function.update q.stored call.provider value }
  | (outcome, none) =>
    q.modify i fun call => { call with phase := .done, ended := some callback, outcome := some outcome }

/-! ## The guarantees -/

/-- The last call before number `n` that committed to the provider id left
`value`, or none committed and it was there from the start. -/
def LeftBefore (initial : String → Option γ) (calls : List (StoreCall φ γ)) (n : Nat) (provider : String)
    (value : Option γ) : Prop :=
  (∃ (j : Nat) (call : StoreCall φ γ), j < n ∧ calls[j]? = some call ∧ call.provider = provider ∧
    call.effect = some value ∧ ∀ (l : Nat) (call' : StoreCall φ γ), j < l → l < n → calls[l]? = some call' →
      call'.provider = provider → call'.effect = none) ∨
  value = initial provider ∧ ∀ (l : Nat) (call' : StoreCall φ γ), l < n → calls[l]? = some call' →
    call'.provider = provider → call'.effect = none

/-- An outcome that is the operation's own: its signal has aborted, it is a
`delete`, or its callback ended so. -/
def IsOwn (call : StoreCall φ γ) (outcome : StoreOutcome γ) : Prop :=
  (outcome = .aborted ∧ call.aborted = true) ∨ (call.operation = .delete ∧ outcome = .ok none) ∨
  ∃ current callback, call.received = some current ∧ call.ended = some callback ∧
    outcome = (callback.settle current false).1 ∧ outcome ≠ .cancelled

/-- A call ended with this outcome and committed nothing. -/
def EndedWith (q : WriteQueue φ γ) (i : Nat) (outcome : StoreOutcome γ) (q' : WriteQueue φ γ) : Prop :=
  q'.stored = q.stored ∧
    ∃ call : StoreCall φ γ, q'.calls[i]? = some call ∧ call.outcome = some outcome ∧ call.effect = none

/-- What calls may rely on.  `canStep` says that the task of a call can go on,
`settled` what there is once its callback has ended. -/
structure Guaranteed (initial : String → Option γ) (canStep : Nat → Prop)
    (settled : Nat → CallbackEnd γ → Option (WriteQueue φ γ)) (q : WriteQueue φ γ) : Prop where
  exclusive : ∀ (i j : Nat) (call call' : StoreCall φ γ), q.calls[i]? = some call → q.calls[j]? = some call' →
    call.phase = .running → call'.phase = .running → call.provider = call'.provider → i = j
  ordered : q.turns.Pairwise fun i j =>
    ((q.calls[i]?).map StoreCall.provider = (q.calls[j]?).map StoreCall.provider → i < j)
  received : ∀ (i : Nat) (call : StoreCall φ γ) (current : Option γ), q.calls[i]? = some call →
    call.received = some current → LeftBefore initial q.calls i call.provider current
  silent : ∀ (i : Nat) (call : StoreCall φ γ), q.calls[i]? = some call →
    call.outcome = some .aborted ∨ (∃ message, call.outcome = some (.raised message)) → call.effect = none
  /-- A callback that resolves after its signal has aborted commits nothing. -/
  late : ∀ (i : Nat) (call : StoreCall φ γ) (next : Option γ) (q' : WriteQueue φ γ), q.calls[i]? = some call →
    call.aborted = true → settled i (.value next) = some q' → q.EndedWith i .aborted q'
  /-- And so does one that raises. -/
  raising : ∀ (i : Nat) (call : StoreCall φ γ) (message : String) (q' : WriteQueue φ γ), q.calls[i]? = some call →
    settled i (.raised message) = some q' → q.EndedWith i (.raised message) q'
  independent : ∀ (i : Nat) (call : StoreCall φ γ) (outcome : StoreOutcome γ), q.calls[i]? = some call →
    call.outcome = some outcome → IsOwn call outcome
  /-- An operation is held up by nothing but a callback before it. -/
  progress : ∀ (i : Nat) (call : StoreCall φ γ), q.calls[i]? = some call → call.outcome = none →
    ∃ (j : Nat) (call' : StoreCall φ γ), j ≤ i ∧ q.calls[j]? = some call' ∧ call'.provider = call.provider ∧
      (call'.phase = .running ∨ canStep j)

/-! ## The invariant -/

/-- The operations as members that take turns. -/
def turnsView (q : WriteQueue φ γ) : Turns String where
  scope i := (q.calls[i]?).bind StoreCall.scope
  current i := (q.calls[i]?).bind StoreCall.previous
  released i := ∃ call : StoreCall φ γ, q.calls[i]? = some call ∧ call.released = true
  tail := q.chains

/-- The credentials as cells. -/
def cells (q : WriteQueue φ γ) : Cells String (Option γ) where
  received i := (q.calls[i]?).bind StoreCall.received
  effect i := (q.calls[i]?).bind StoreCall.effect
  stored := q.stored

/-- An operation has taken its turn. -/
def HasBegun (call : StoreCall φ γ) : Prop := call.phase = .running ∨ call.phase = .done

/-- What a call's phase says of its fields. -/
structure Fits (call : StoreCall φ γ) : Prop where
  scope : ∀ provider, call.scope = some provider → provider = call.provider
  idle : ¬ HasBegun call → call.effect = none ∧ call.outcome = none ∧ call.released = false
  running : call.phase = .running → call.operation = .modify ∧ call.received.isSome ∧ call.effect = none ∧
    call.outcome = none ∧ call.released = false
  done : call.phase = .done → ∃ outcome, call.outcome = some outcome ∧ IsOwn call outcome ∧
    (outcome = .aborted ∨ (∃ message, outcome = .raised message) → call.effect = none)

/-- What has an outcome is done. -/
theorem Fits.phase_of_outcome {call : StoreCall φ γ} (h : Fits call) (hout : call.outcome ≠ none) :
    call.phase = .done := by
  cases hphase : call.phase with
  | created | waiting => exact absurd (h.idle (by simp [HasBegun, hphase])).2.1 hout
  | running => exact absurd (h.running hphase).2.2.2.1 hout
  | done => rfl

/-- What every step keeps. -/
structure Orderly (initial : String → Option γ) (q : WriteQueue φ γ) : Prop where
  fits : ∀ (i : Nat) (call : StoreCall φ γ), q.calls[i]? = some call → Fits call
  begun : ∀ (i : Nat) (call : StoreCall φ γ), q.calls[i]? = some call → (HasBegun call ↔ i ∈ q.turns)
  fifo : q.turnsView.Fifo
  logged : q.turnsView.Logged q.turns
  written : q.turnsView.Written q.turns initial q.cells

variable {initial : String → Option γ} {q q' : WriteQueue φ γ} {i : Nat} {call call' : StoreCall φ γ}

theorem turnsView_scope (h : q.calls[i]? = some call) : q.turnsView.scope i = call.scope := by simp [turnsView, h]

theorem turnsView_current (h : q.calls[i]? = some call) : q.turnsView.current i = call.previous := by
  simp [turnsView, h]

theorem turnsView_released (h : q.calls[i]? = some call) : q.turnsView.released i ↔ call.released = true := by
  simp [turnsView, h]

theorem orderly_empty : Orderly initial ({ stored := initial } : WriteQueue φ γ) where
  fits := by simp
  begun := by simp
  fifo := Turns.fifo_of_empty (by simp [turnsView]) (by simp [turnsView])
  logged := Turns.logged_nil _
  written := Turns.written_of_empty (by simp [cells]) (by simp [cells]) (by simp [cells])

/-- Who is in the log is in the table. -/
theorem Orderly.exists_of_mem (h : Orderly initial q) (hi : i ∈ q.turns) : ∃ call, q.calls[i]? = some call := by
  obtain ⟨hsome, -⟩ := h.logged.turn i hi
  cases hcall : q.calls[i]? with
  | none => simp [turnsView, hcall] at hsome
  | some call => exact ⟨call, rfl⟩

/-- It is an operation's turn once the one it awaits is released. -/
theorem Orderly.turn (h : Orderly initial q) (hi : q.calls[i]? = some call) (hscope : call.scope.isSome)
    (hdone : q.isReleased call.previous = true) : q.turnsView.Turn i := by
  intro p hp
  obtain ⟨k, hk⟩ := Option.isSome_iff_exists.mp hscope
  have hlt := (h.fifo.current_lt i k p (by rw [turnsView_scope hi, hk]) hp).1
  obtain ⟨before, hbefore⟩ : ∃ before, q.calls[p]? = some before :=
    ⟨_, List.getElem?_eq_getElem (Nat.lt_trans hlt (List.getElem?_eq_some_iff.mp hi).1)⟩
  rw [turnsView_current hi] at hp
  rw [turnsView_released hbefore]
  simpa [hp, isReleased, hbefore] using hdone

/-- The scopes of a provider id are those of its operations. -/
theorem Orderly.bound (q : WriteQueue φ γ) (k : String) : ∀ j, q.turnsView.scope j = some k → j < q.calls.length := by
  intro j hj
  obtain ⟨call, hcall, -⟩ := Option.bind_eq_some_iff.mp hj
  exact (List.getElem?_eq_some_iff.mp hcall).1

/-! ## What the invariant guarantees -/

/-- The last write in an operation's place in the order is the last one among
the calls. -/
theorem Orderly.leftBefore (h : Orderly initial q) {n : Nat} {provider : String} {value : Option γ}
    (hlast : q.turnsView.LastWrite q.cells.effect initial n provider value) :
    LeftBefore initial q.calls n provider value := by
  -- what has no place yet has committed nothing
  have hnone : ∀ (l : Nat) (call : StoreCall φ γ), q.calls[l]? = some call → call.provider = provider →
      (q.turnsView.scope l = some provider → q.cells.effect l = none) → call.effect = none := by
    intro l call hl hprovider heffect
    have heq : q.cells.effect l = call.effect := by simp [cells, hl]
    cases hscope : call.scope with
    | some k =>
      rw [← heq]
      refine heffect ?_
      rw [turnsView_scope hl, hscope, (h.fits l call hl).scope k hscope, hprovider]
    | none =>
      refine ((h.fits l call hl).idle fun hbegun => ?_).1
      have hsome := (h.logged.turn l ((h.begun l call hl).mp hbegun)).1
      simp [turnsView_scope hl, hscope] at hsome
  rcases hlast with ⟨j, hlt, hj, hv, hlater⟩ | ⟨hv, hall⟩
  · obtain ⟨call, hcall, hscope⟩ := Option.bind_eq_some_iff.mp hj
    refine .inl ⟨j, call, hlt, hcall, ((h.fits j call hcall).scope provider hscope).symm, ?_,
      fun l call' hjl hln hl hp => ?_⟩
    · simpa [cells, hcall] using hv
    · exact hnone l call' hl hp fun hscope' => hlater l hjl hln hscope'
  · exact .inr ⟨hv, fun l call' hln hl hp => hnone l call' hl hp fun hscope' => hall l hln hscope'⟩

/-- An operation that is in its callback has started and is not released. -/
theorem Orderly.of_running (h : Orderly initial q) (hi : q.calls[i]? = some call) (hphase : call.phase = .running) :
    i ∈ q.turns ∧ q.turnsView.scope i = some call.provider ∧ ¬ q.turnsView.released i := by
  have hfits := h.fits i call hi
  have hmem := (h.begun i call hi).mp (.inl hphase)
  have hsome := (h.logged.turn i hmem).1
  obtain ⟨k, hk⟩ := Option.isSome_iff_exists.mp hsome
  refine ⟨hmem, ?_, ?_⟩
  · rw [turnsView_scope hi] at hk
    rw [turnsView_scope hi, hk, hfits.scope k hk]
  · rw [turnsView_released hi, (hfits.running hphase).2.2.2.2]
    simp

/-- A callback ends with which its operation commits nothing. -/
theorem Orderly.endedWith (h : Orderly initial q) (hi : q.calls[i]? = some call) (hphase : call.phase = .running)
    {callback : CallbackEnd γ} {outcome : StoreOutcome γ}
    (hsettle : callback.settle (call.received.getD none) call.aborted = (outcome, none)) :
    q.EndedWith i outcome (q.endCallback i call callback) := by
  rw [endCallback, hsettle]
  exact ⟨rfl, _, (Table.changed_modify hi _).after, rfl, ((h.fits i call hi).running hphase).2.2.1⟩

/-- The guarantees follow, but for progress, where callbacks end by `endCallback`. -/
theorem Orderly.guaranteed (h : Orderly initial q) {canStep : Nat → Prop}
    {settled : Nat → CallbackEnd γ → Option (WriteQueue φ γ)}
    (hsettled : ∀ (i : Nat) (call : StoreCall φ γ) (callback : CallbackEnd γ) (q' : WriteQueue φ γ),
      q.calls[i]? = some call → callback ≠ .cancelled → settled i callback = some q' →
        call.phase = .running ∧ q' = q.endCallback i call callback)
    (hprogress : ∀ (i : Nat) (call : StoreCall φ γ), q.calls[i]? = some call → call.outcome = none →
      ∃ (j : Nat) (call' : StoreCall φ γ), j ≤ i ∧ q.calls[j]? = some call' ∧ call'.provider = call.provider ∧
        (call'.phase = .running ∨ canStep j)) : Guaranteed initial canStep settled q where
  exclusive := by
    have hnotlt : ∀ (i j : Nat) (call call' : StoreCall φ γ), q.calls[i]? = some call → q.calls[j]? = some call' →
        call.phase = .running → call'.phase = .running → call.provider = call'.provider → ¬ i < j := by
      intro i j call call' hi hj hphase hphase' hprovider hlt
      obtain ⟨-, hscope, hopen⟩ := h.of_running hi hphase
      obtain ⟨hmem, hscope', -⟩ := h.of_running hj hphase'
      exact h.logged.not_mem_of_lt h.fifo hscope hopen (by rw [hscope', hprovider]) hlt hmem
    intro i j call call' hi hj hphase hphase' hprovider
    have h₁ := hnotlt i j call call' hi hj hphase hphase' hprovider
    have h₂ := hnotlt j i call' call hj hi hphase' hphase hprovider.symm
    omega
  ordered := by
    have hscope : ∀ i ∈ q.turns, q.turnsView.scope i = (q.calls[i]?).map StoreCall.provider := by
      intro i hi
      obtain ⟨call, hcall⟩ := h.exists_of_mem hi
      obtain ⟨k, hk⟩ := Option.isSome_iff_exists.mp (h.logged.turn i hi).1
      have hk' := hk
      rw [turnsView_scope hcall] at hk'
      rw [hk, hcall, (h.fits i call hcall).scope k hk']
      rfl
    refine h.logged.ordered.imp_of_mem fun hi hj hlt heq => hlt ?_
    rw [hscope _ hi, hscope _ hj, heq]
  received := by
    intro i call current hi hreceived
    have hcell : q.cells.received i = some current := by simp [cells, hi, hreceived]
    obtain ⟨hmem, hlast⟩ := h.written.received i current hcell
    obtain ⟨k, hk⟩ := Option.isSome_iff_exists.mp (h.logged.turn i hmem).1
    have hk' := hk
    rw [turnsView_scope hi] at hk'
    rw [← (h.fits i call hi).scope k hk']
    exact h.leftBefore (hlast k hk)
  silent := by
    intro i call hi hsilent
    have hfits := h.fits i call hi
    have hne : call.outcome ≠ none := by
      rcases hsilent with hout | ⟨message, hout⟩ <;> simp [hout]
    cases hphase : call.phase with
    | created | waiting => exact (hfits.idle (by simp [HasBegun, hphase])).1
    | running => exact (hfits.running hphase).2.2.1
    | done =>
      obtain ⟨outcome, hout, -, hnone⟩ := hfits.done hphase
      refine hnone ?_
      simpa [hout] using hsilent
  late := by
    intro i call next q' hi haborted hend
    obtain ⟨hphase, rfl⟩ := hsettled i call _ q' hi (by simp) hend
    exact h.endedWith hi hphase (by simp [CallbackEnd.settle, haborted])
  raising := by
    intro i call message q' hi hend
    obtain ⟨hphase, rfl⟩ := hsettled i call _ q' hi (by simp) hend
    exact h.endedWith hi hphase rfl
  independent := by
    intro i call outcome hi hout
    have hfits := h.fits i call hi
    cases hphase : call.phase with
    | created | waiting =>
      have := (hfits.idle (by simp [HasBegun, hphase])).2.1
      simp [this] at hout
    | running =>
      have := (hfits.running hphase).2.2.2.1
      simp [this] at hout
    | done =>
      obtain ⟨outcome', hout', hown, -⟩ := hfits.done hphase
      rw [hout] at hout'
      obtain rfl := Option.some.inj hout'
      exact hown
  progress := hprogress

/-! ## Operations -/

section Operations

variable (h : Orderly initial q) (hchanged : Table.Changed q.calls q'.calls i call call')

include hchanged in
theorem turnsView_eq (hscope : call'.scope = call.scope) (hprevious : call'.previous = call.previous)
    (hreleased : call'.released = call.released) (hchains : q'.chains = q.chains) : q'.turnsView = q.turnsView := by
  refine Turns.ext (funext (hchanged.bind_eq hscope)) (funext (hchanged.bind_eq hprevious)) (funext fun j => ?_) hchains
  refine propext ?_
  by_cases heq : j = i
  · subst heq
    rw [turnsView_released hchanged.after, turnsView_released hchanged.before, hreleased]
  · simp only [turnsView, hchanged.others j heq]

include h hchanged in
/-- A change that leaves the operation where it is. -/
theorem Orderly.same (hfits : Fits call') (hbegun : HasBegun call' ↔ HasBegun call) (hscope : call'.scope = call.scope)
    (hprevious : call'.previous = call.previous) (hreleased : call'.released = call.released)
    (hreceived : call'.received = call.received) (heffect : call'.effect = call.effect) (hstored : q'.stored = q.stored)
    (hchains : q'.chains = q.chains) (hturns : q'.turns = q.turns) : Orderly initial q' := by
  have hview := turnsView_eq hchanged hscope hprevious hreleased hchains
  have hcells : q'.cells = q.cells :=
    Cells.ext (funext (hchanged.bind_eq hreceived)) (funext (hchanged.bind_eq heffect)) hstored
  refine ⟨hchanged.forall h.fits hfits, ?_, by rw [hview]; exact h.fifo, by rw [hview, hturns]; exact h.logged,
    by rw [hview, hturns, hcells]; exact h.written⟩
  rw [hturns]
  exact hchanged.forall h.begun (hbegun.trans (h.begun i call hchanged.before))

include h hchanged in
/-- An operation starts. -/
theorem Orderly.start (hfits : Fits call') (hbegun : HasBegun call') (hidle : ¬ HasBegun call)
    (hscope : call'.scope = call.scope) (hprevious : call'.previous = call.previous)
    (hreleased : call'.released = call.released) (hsome : call.scope = some call.provider)
    (hturn : q.turnsView.Turn i) (hreceived : call'.received = none ∨ call'.received = some (q.stored call.provider))
    (heffect : call'.effect = call.effect) (hstored : q'.stored = q.stored) (hchains : q'.chains = q.chains)
    (hturns : q'.turns = q.turns ++ [i]) : Orderly initial q' := by
  have hview := turnsView_eq hchanged hscope hprevious hreleased hchains
  have hopen : ¬ q.turnsView.released i := by
    rw [turnsView_released hchanged.before, ((h.fits i call hchanged.before).idle hidle).2.2]
    simp
  have hk : q.turnsView.scope i = some call.provider := by rw [turnsView_scope hchanged.before, hsome]
  have hnew : i ∉ q.turns := fun hmem => hidle ((h.begun i call hchanged.before).mpr hmem)
  refine ⟨hchanged.forall h.fits hfits, fun j other hj => ?_, by rw [hview]; exact h.fifo, ?_, ?_⟩
  · rw [hturns, List.mem_append, List.mem_singleton]
    by_cases heq : j = i
    · subst heq
      rw [hchanged.after] at hj
      obtain rfl := Option.some.inj hj
      simp [hbegun]
    · rw [hchanged.others j heq] at hj
      rw [h.begun j other hj]
      simp [heq]
  · rw [hview, hturns]
    exact h.logged.start h.fifo hk hturn hopen hnew
  · rw [hview]
    refine h.written.start h.logged h.fifo hk hopen hnew (Orderly.bound q call.provider) hturns hstored
      (funext (hchanged.bind_eq heffect)) ?_ fun j hne => ?_
    · simpa [cells, hchanged.after] using hreceived
    · simp only [cells, hchanged.others j hne]

include h hchanged in
/-- An operation that has started commits. -/
theorem Orderly.commit (hfits : Fits call') (hbegun : HasBegun call') (hmem : i ∈ q.turns)
    (hk : q.turnsView.scope i = some call.provider) (hopen : ¬ q.turnsView.released i)
    (hscope : call'.scope = call.scope) (hprevious : call'.previous = call.previous)
    (hreleased : call'.released = call.released) (hreceived : call'.received = call.received) {value : Option γ}
    (heffect : call'.effect = some value) (hstored : q'.stored = Function.update q.stored call.provider value)
    (hchains : q'.chains = q.chains) (hturns : q'.turns = q.turns) : Orderly initial q' := by
  have hview := turnsView_eq hchanged hscope hprevious hreleased hchains
  refine ⟨hchanged.forall h.fits hfits, ?_, by rw [hview]; exact h.fifo, by rw [hview, hturns]; exact h.logged, ?_⟩
  · rw [hturns]
    exact hchanged.forall h.begun (iff_of_true hbegun hmem)
  · rw [hview, hturns]
    have heffectI : q'.cells.effect i = some value := by simpa [cells, hchanged.after] using heffect
    refine h.written.write h.logged h.fifo hk hopen hmem (funext (hchanged.bind_eq hreceived)) heffectI
      (fun j hne => ?_)
      ?_ fun k' hne => ?_
    · simp only [cells, hchanged.others j hne]
    · simp [cells, hstored]
    · simp [cells, hstored, hne]

include h hchanged in
/-- An operation that has ended is released. -/
theorem Orderly.release (hfits : Fits call') (hphase : call'.phase = call.phase) (hbegun : HasBegun call)
    (hscope : call'.scope = call.scope) (hprevious : call'.previous = call.previous) (hreleased : call'.released = true)
    (hreceived : call'.received = call.received) (heffect : call'.effect = call.effect) (hstored : q'.stored = q.stored)
    (hchains : q'.chains = q.chains) (hturns : q'.turns = q.turns) : Orderly initial q' := by
  have hrel : ∀ j, q'.turnsView.released j ↔ j = i ∨ q.turnsView.released j := by
    intro j
    by_cases heq : j = i
    · subst heq
      simp [turnsView_released hchanged.after, hreleased]
    · simp only [turnsView, hchanged.others j heq, heq, false_or]
  have hmem := (h.begun i call hchanged.before).mp hbegun
  have hscopes : ∀ j, q'.turnsView.scope j = q.turnsView.scope j := hchanged.bind_eq hscope
  have hcurrent : ∀ j, q'.turnsView.current j = q.turnsView.current j := hchanged.bind_eq hprevious
  have hcells : q'.cells = q.cells :=
    Cells.ext (funext (hchanged.bind_eq hreceived)) (funext (hchanged.bind_eq heffect)) hstored
  refine ⟨hchanged.forall h.fits hfits, ?_, ?_, ?_, ?_⟩
  · rw [hturns]
    refine hchanged.forall h.begun (iff_of_true ?_ hmem)
    rw [HasBegun, hphase]
    exact hbegun
  · exact h.fifo.release (h.logged.turn i hmem).2 hscopes hcurrent hrel fun k => congrFun hchains k
  · rw [hturns]
    exact h.logged.mono (fun j _ => hscopes j) (fun j _ => hcurrent j) fun j hj => (hrel j).mpr (.inr hj)
  · rw [hturns, hcells]
    exact h.written.congr hscopes

include h in
/-- The last place of a provider id is forgotten once it is released. -/
theorem Orderly.clear (hi : q.calls[i]? = some call) (hreleased : call.released = true) {provider : String}
    (hlast : q.chains provider = some i) (hcalls : q'.calls = q.calls) (hstored : q'.stored = q.stored)
    (hturns : q'.turns = q.turns) (hchains : q'.chains = Function.update q.chains provider none) :
    Orderly initial q' := by
  have hscope : ∀ j, q'.turnsView.scope j = q.turnsView.scope j := fun j => by simp only [turnsView, hcalls]
  have hcurrent : ∀ j, q'.turnsView.current j = q.turnsView.current j := fun j => by simp only [turnsView, hcalls]
  have hrel : ∀ j, q'.turnsView.released j ↔ q.turnsView.released j := fun j => by simp only [turnsView, hcalls]
  have hcells : q'.cells = q.cells := by simp only [cells, hcalls, hstored]
  refine ⟨by rw [hcalls]; exact h.fits, by rw [hcalls, hturns]; exact h.begun, ?_, ?_, ?_⟩
  · refine h.fifo.clear hlast ((turnsView_released hi).mpr hreleased) hscope hcurrent hrel ?_ fun k hk => ?_
    · simp [turnsView, hchains]
    · simp [turnsView, hchains, hk]
  · rw [hturns]
    exact h.logged.mono (fun j _ => hscope j) (fun j _ => hcurrent j) fun j => (hrel j).mpr
  · rw [hturns, hcells]
    exact h.written.congr hscope

include h in
/-- A call is added that has no place yet. -/
theorem Orderly.append {new : StoreCall φ γ} (hphase : new.phase = .created) (hscope : new.scope = none)
    (hprevious : new.previous = none) (hreleased : new.released = false) (hreceived : new.received = none)
    (heffect : new.effect = none) (houtcome : new.outcome = none) :
    Orderly initial { q with calls := q.calls ++ [new] } := by
  have hread : ∀ {α : Type} (f : StoreCall φ γ → Option α) (j : Nat), f new = none →
      ((q.calls ++ [new])[j]?).bind f = (q.calls[j]?).bind f := by
    intro α f j hf
    cases hj : (q.calls ++ [new])[j]? with
    | none =>
      have hlen := List.getElem?_eq_none_iff.mp hj
      rw [List.getElem?_eq_none (by simp at hlen; omega)]
    | some call =>
      rcases Table.getElem?_concat_cases hj with hold | ⟨rfl, rfl⟩
      · rw [hold]
      · simp [hf]
  have hview : ({ q with calls := q.calls ++ [new] } : WriteQueue φ γ).turnsView = q.turnsView := by
    refine Turns.ext (funext fun j => hread _ j hscope) (funext fun j => hread _ j hprevious) (funext fun j => ?_) rfl
    refine propext ⟨fun ⟨call, hj, hrel⟩ => ?_, fun ⟨call, hj, hrel⟩ => ⟨call, ?_, hrel⟩⟩
    · rcases Table.getElem?_concat_cases hj with hold | ⟨-, rfl⟩
      · exact ⟨call, hold, hrel⟩
      · simp [hreleased] at hrel
    · rw [List.getElem?_append_left (List.getElem?_eq_some_iff.mp hj).1]
      exact hj
  have hcells : ({ q with calls := q.calls ++ [new] } : WriteQueue φ γ).cells = q.cells :=
    Cells.ext (funext fun j => hread _ j hreceived) (funext fun j => hread _ j heffect) rfl
  have hidle : ¬ HasBegun new := by simp [HasBegun, hphase]
  refine ⟨fun j call hj => ?_, fun j call hj => ?_, by rw [hview]; exact h.fifo, by rw [hview]; exact h.logged,
    by rw [hview, hcells]; exact h.written⟩
  · rcases Table.getElem?_concat_cases hj with hold | ⟨-, rfl⟩
    · exact h.fits j call hold
    · exact ⟨by simp [hscope], fun _ => ⟨heffect, houtcome, hreleased⟩, by simp [hphase], by simp [hphase]⟩
  · rcases Table.getElem?_concat_cases hj with hold | ⟨rfl, rfl⟩
    · exact h.begun j call hold
    · refine iff_of_false hidle fun hmem => ?_
      obtain ⟨call', hcall'⟩ := h.exists_of_mem hmem
      simp at hcall'

include h in
/-- An operation that has no place gets it, behind all of its provider id. -/
theorem Orderly.link (hi : q.calls[i]? = some call) (hnone : call.scope = none)
    (hnew : ∀ (j : Nat) (other : StoreCall φ γ), q.calls[j]? = some other → other.scope = some call.provider → j < i) :
    Orderly initial (q.link i call.provider) := by
  have hchanged : Table.Changed q.calls (q.link i call.provider).calls i call
      { call with scope := some call.provider, previous := q.chains call.provider } := Table.changed_modify hi _
  have hfits := h.fits i call hi
  have hscopeI : q.turnsView.scope i = none := by rw [turnsView_scope hi, hnone]
  have hnotin : i ∉ q.turns := fun hmem => by
    have := (h.logged.turn i hmem).1
    simp [hscopeI] at this
  have hidle : ¬ HasBegun call := fun hbegun => hnotin ((h.begun i call hi).mp hbegun)
  have hnewView : ∀ j, q.turnsView.scope j = some call.provider → j < i := by
    intro j hj
    obtain ⟨other, hother, hscope⟩ := Option.bind_eq_some_iff.mp hj
    exact hnew j other hother hscope
  have hother : ∀ j, j ≠ i → (q.link i call.provider).turnsView.scope j = q.turnsView.scope j ∧
      (q.link i call.provider).turnsView.current j = q.turnsView.current j := fun j hne => by
    simp only [turnsView, hchanged.others j hne, and_self]
  have hreleased : ∀ j, (q.link i call.provider).turnsView.released j ↔ q.turnsView.released j := by
    intro j
    by_cases heq : j = i
    · subst heq
      rw [turnsView_released hchanged.after, turnsView_released hi]
    · simp only [turnsView, hchanged.others j heq]
  have hopen : ¬ (q.link i call.provider).turnsView.released i := by
    rw [hreleased, turnsView_released hi, (hfits.idle hidle).2.2]
    simp
  have hcells : (q.link i call.provider).cells = q.cells :=
    Cells.ext (funext (hchanged.bind_eq rfl)) (funext (hchanged.bind_eq rfl)) rfl
  refine ⟨hchanged.forall h.fits ?_, hchanged.forall h.begun (h.begun i call hi), ?_, ?_, ?_⟩
  · exact ⟨fun k hk => (Option.some.inj hk).symm, hfits.idle, hfits.running, hfits.done⟩
  · refine h.fifo.enqueue hscopeI hnewView (turnsView_scope hchanged.after) (fun j hne => (hother j hne).1)
      (turnsView_current hchanged.after) (fun j hne => (hother j hne).2) hopen (fun j _ => hreleased j) ?_
        fun k hk => ?_
    · exact Function.update_self ..
    · exact Function.update_of_ne hk ..
  · have hne : ∀ j ∈ q.turns, j ≠ i := by
      rintro j hj rfl
      exact hnotin hj
    exact h.logged.mono (fun j hj => (hother j (hne j hj)).1) (fun j hj => (hother j (hne j hj)).2)
      fun j => (hreleased j).mpr
  · rw [hcells]
    exact h.written.enqueue hscopeI hnewView (turnsView_scope hchanged.after) (fun j hne => (hother j hne).1) hnotin

include h in
/-- An operation takes its turn. -/
theorem Orderly.takeTurn (hi : q.calls[i]? = some call) (hidle : ¬ HasBegun call)
    (hscope : call.scope = some call.provider) (hturn : q.turnsView.Turn i) : Orderly initial (q.takeTurn i call) := by
  have hfits := h.fits i call hi
  obtain ⟨heffect, houtcome, hreleased⟩ := hfits.idle hidle
  have hreceived : call.received = none := by
    cases hr : call.received with
    | none => rfl
    | some current =>
      have hcell : q.cells.received i = some current := by simp [cells, hi, hr]
      exact absurd ((h.begun i call hi).mpr (h.written.received i current hcell).1) hidle
  rw [WriteQueue.takeTurn]
  split
  case isTrue haborted =>
    refine h.start (Table.changed_modify hi _) ?_ (.inr rfl) hidle rfl rfl rfl hscope hturn (.inl hreceived) rfl
      rfl rfl rfl
    refine ⟨hfits.scope, fun hnot => absurd (Or.inr rfl) hnot, by simp, fun _ =>
      ⟨.aborted, rfl, .inl ⟨rfl, haborted⟩, ?_⟩⟩
    exact fun _ => heffect
  case isFalse =>
    split
    case h_1 hoperation =>
      -- it starts and commits in one step
      let started : StoreCall φ γ := { call with phase := .done, outcome := some (.ok none) }
      have hown : IsOwn started (.ok none) := .inr (.inl ⟨hoperation, rfl⟩)
      let q₁ : WriteQueue φ γ :=
        { q.modify i fun call => { call with phase := .done, outcome := some (.ok none) } with turns := q.turns ++ [i] }
      have hchanged : Table.Changed q.calls q₁.calls i call started := Table.changed_modify hi _
      have hstarted : Orderly initial q₁ := by
        refine h.start hchanged ?_ (.inr rfl) hidle rfl rfl rfl hscope hturn (.inl hreceived) rfl rfl rfl rfl
        exact ⟨hfits.scope, fun hnot => absurd (Or.inr rfl) hnot, by simp [started], fun _ => ⟨_, rfl, hown, by simp⟩⟩
      have hopen : ¬ q₁.turnsView.released i := by
        rw [turnsView_released hchanged.after]
        simp [started, hreleased]
      let removed : StoreCall φ γ := { call with phase := .done, effect := some none, outcome := some (.ok none) }
      let q₂ : WriteQueue φ γ :=
        { q.modify i fun call => { call with phase := .done, effect := some none, outcome := some (.ok none) } with
          stored := Function.update q.stored call.provider none
          turns := q.turns ++ [i] }
      have hremoved : Table.Changed q.calls q₂.calls i call removed := Table.changed_modify hi _
      have hchanged₂ : Table.Changed q₁.calls q₂.calls i started removed :=
        ⟨hchanged.after, hremoved.after, fun j hne => (hremoved.others j hne).trans (hchanged.others j hne).symm⟩
      have hfits₂ : Fits removed :=
        ⟨hfits.scope, fun hnot => absurd (Or.inr rfl) hnot, by simp [removed], fun _ => ⟨_, rfl, hown, by simp⟩⟩
      exact hstarted.commit hchanged₂ hfits₂ (.inr rfl) (by simp [q₁])
        ((turnsView_scope hchanged.after).trans hscope) hopen
        rfl rfl rfl rfl rfl rfl rfl rfl
    case h_2 hoperation =>
      refine h.start (Table.changed_modify hi _) ?_ (.inl rfl) hidle rfl rfl rfl hscope hturn (.inr rfl) rfl rfl rfl rfl
      exact ⟨hfits.scope, fun hnot => absurd (Or.inl rfl) hnot, fun _ =>
        ⟨hoperation, rfl, heffect, houtcome, hreleased⟩, by simp⟩

include h in
/-- A callback ends that was not cancelled. -/
theorem Orderly.endCallback (hi : q.calls[i]? = some call) (hphase : call.phase = .running) {callback : CallbackEnd γ}
    (hcallback : (callback.settle (call.received.getD none) call.aborted).1 ≠ .cancelled) :
    Orderly initial (q.endCallback i call callback) := by
  have hfits := h.fits i call hi
  obtain ⟨hmem, hscope, hopen⟩ := h.of_running hi hphase
  obtain ⟨-, hreceived, heffect, -, -⟩ := hfits.running hphase
  obtain ⟨current, hcurrent⟩ := Option.isSome_iff_exists.mp hreceived
  rw [hcurrent, Option.getD_some] at hcallback
  have hown : ∀ call' : StoreCall φ γ, call'.received = some current → call'.ended = some callback →
      call'.aborted = call.aborted → IsOwn call' (callback.settle current call.aborted).1 := by
    intro call' hreceived' hended haborted
    rcases callback.settle_fst current call.aborted with ⟨hout, htrue⟩ | hout
    · exact .inl ⟨hout, haborted.trans htrue⟩
    · exact .inr (.inr ⟨current, callback, hreceived', hended, hout, hcallback⟩)
  have hsilent := @CallbackEnd.settle_silent γ callback current call.aborted
  rw [WriteQueue.endCallback, hcurrent, Option.getD_some]
  rcases hsettle : callback.settle current call.aborted with ⟨outcome, value⟩
  rw [hsettle] at hown hsilent
  cases value with
  | some value =>
    refine h.commit (Table.changed_modify hi _) ?_ (.inr rfl) hmem hscope hopen rfl rfl rfl rfl rfl rfl rfl rfl
    refine ⟨hfits.scope, fun hnot => absurd (Or.inr rfl) hnot, by simp, fun _ =>
      ⟨outcome, rfl, hown _ hcurrent rfl rfl, ?_⟩⟩
    exact fun hout => absurd (hsilent hout) (by simp)
  | none =>
    refine h.same (Table.changed_modify hi _) ?_ (by simp [HasBegun, hphase]) rfl rfl rfl rfl rfl rfl rfl rfl
    exact ⟨hfits.scope, fun hnot => absurd (Or.inr rfl) hnot, by simp, fun _ => ⟨outcome, rfl, hown _ hcurrent rfl rfl,
      fun _ => heffect⟩⟩

end Operations

end WriteQueue

end MinionAgent
