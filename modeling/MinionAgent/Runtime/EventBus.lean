import MinionAgent.Library.Loop
import MinionAgent.Library.Waterfall

/-!
# MinionAgent.Runtime.EventBus

Waterfall dispatch of an event: the recursion of `EventBus.waterfall`
(`runtime/events.py`), and the two loops of `run_waterfall`
(`runtime/event.rs`) with their stack of suspended listeners.

* `EventBus.step` — the recursion, with what it enters;
* `RustEvent.turn` — one turn of the loops;
* `RustEvent.reaches_backward` — the loops reach what the recursion returns;
* `waterfall_agrees` — the two dispatches agree.
-/

namespace MinionAgent

variable {P β ε : Type}

/-! ## Python -/

/-- What a dispatch calls: a listener by its index, or the terminal, with the
payload then current. -/
inductive Arrival (P : Type)
  | listener (index : Nat) (payload : P)
  | terminal (payload : P)

namespace Arrival

def payload : Arrival P → P
  | listener _ payload => payload
  | terminal payload => payload

def index? : Arrival P → Option Nat
  | listener index _ => some index
  | terminal _ => none

end Arrival

/-- What a dispatch comes to, with all that it enters. -/
structure Dispatched (P β ε : Type) where
  outcome : Except ε β
  entered : List (Arrival P)

/-- `normalize_step`, when given. -/
def normalized (normalizeStep : Option (P → P)) (payload : P) : P :=
  match normalizeStep with
  | some normalize => normalize payload
  | none => payload

namespace EventBus

/-- Attends to a listener: its first `next_` runs what is behind it, and any
other raises. -/
def attend (reused : ε) (behind : Option P → Dispatched P β ε) : Bool → Middleware P β ε → Dispatched P β ε
  | _, .ends outcome => { outcome, entered := [] }
  | true, .next _ resume => attend reused behind true (resume (.error reused))
  | false, .next replacement resume =>
    let inner := behind replacement
    let rest := attend reused behind true (resume inner.outcome)
    { rest with entered := inner.entered ++ rest.entered }

/-- `step` of `EventBus.waterfall`, from the listener with this index on. -/
def step (terminal : P → β) (normalizeStep : Option (P → P)) (reused : ε) :
    List (P → Middleware P β ε) → Nat → P → Dispatched P β ε
  | [], _, current => { outcome := .ok (terminal current), entered := [.terminal current] }
  | callback :: callbacks, index, current =>
    let behind := fun replacement : Option P =>
      step terminal normalizeStep reused callbacks (index + 1) (normalized normalizeStep (replacement.getD current))
    let attended := attend reused behind false (callback current)
    { attended with entered := .listener index current :: attended.entered }

/-- `EventBus.waterfall`. -/
def waterfall (terminal : P → β) (normalizeStep : Option (P → P)) (reused : ε) (callbacks : List (P → Middleware P β ε))
    (args : P) : Dispatched P β ε :=
  step terminal normalizeStep reused callbacks 0 args

variable {terminal : P → β} {normalizeStep : Option (P → P)} {reused : ε}

/-- A listener whose `next_` is used up enters nothing more. -/
theorem attend_used (behind : Option P → Dispatched P β ε) (listener : Middleware P β ε) :
    attend reused behind true listener = { outcome := listener.settle reused, entered := [] } := by
  induction listener with
  | ends outcome => rfl
  | next replacement resume ih => exact ih (.error reused)

theorem step_ends {callback : P → Middleware P β ε} {callbacks : List (P → Middleware P β ε)} {index : Nat}
    {current : P}
    {outcome : Except ε β} (h : callback current = .ends outcome) :
    step terminal normalizeStep reused (callback :: callbacks) index current =
      { outcome, entered := [.listener index current] } := by
  simp only [step, h, attend]

theorem step_next {callback : P → Middleware P β ε} {callbacks : List (P → Middleware P β ε)} {index : Nat}
    {current : P}
    {replacement : Option P} {resume : Except ε β → Middleware P β ε}
    (h : callback current = .next replacement resume) :
    let inner := step terminal normalizeStep reused callbacks (index + 1)
      (normalized normalizeStep (replacement.getD current))
    step terminal normalizeStep reused (callback :: callbacks) index current =
      { outcome := (resume inner.outcome).settle reused, entered := .listener index current :: inner.entered } := by
  simp only [step, h, attend, attend_used, List.append_nil]

/-- Listeners are entered in order, each once. -/
theorem step_indices (callbacks : List (P → Middleware P β ε)) (index : Nat) (current : P) :
    ∃ count ≤ callbacks.length,
      (step terminal normalizeStep reused callbacks index current).entered.filterMap Arrival.index? =
        List.range' index count := by
  induction callbacks generalizing index current with
  | nil => exact ⟨0, Nat.le_refl 0, rfl⟩
  | cons callback callbacks ih =>
    cases h : callback current with
    | ends outcome => exact ⟨1, by simp, by rw [step_ends h]; rfl⟩
    | next replacement resume =>
      obtain ⟨count, hcount, hrest⟩ := ih (index + 1) (normalized normalizeStep (replacement.getD current))
      refine ⟨count + 1, Nat.succ_le_succ hcount, ?_⟩
      rw [step_next h, List.range'_succ, ← hrest]
      rfl

/-- After the first listener everything sees a normalized payload. -/
theorem step_normalized (callbacks : List (P → Middleware P β ε)) (index : Nat) (current : P) :
    ∀ entered ∈ (step terminal normalizeStep reused callbacks index current).entered,
      entered.payload = current ∨ ∃ handed, entered.payload = normalized normalizeStep handed := by
  induction callbacks generalizing index current with
  | nil => simp [step, Arrival.payload]
  | cons callback callbacks ih =>
    cases h : callback current with
    | ends outcome => simp [step_ends h, Arrival.payload]
    | next replacement resume =>
      have hrest := ih (index + 1) (normalized normalizeStep (replacement.getD current))
      simp only [step_next h, List.mem_cons, forall_eq_or_imp]
      refine ⟨.inl rfl, fun entered hentered => .inr ?_⟩
      rcases hrest entered hentered with heq | hnormalized
      · exact ⟨_, heq⟩
      · exact hnormalized

theorem step_normalized_tail (callbacks : List (P → Middleware P β ε)) (index : Nat) (current : P) :
    ∀ entered ∈ (step terminal normalizeStep reused callbacks index current).entered.tail,
      ∃ handed, entered.payload = normalized normalizeStep handed := by
  cases callbacks with
  | nil => simp [step]
  | cons callback callbacks =>
    cases h : callback current with
    | ends outcome => simp [step_ends h]
    | next replacement resume =>
      intro entered hentered
      rw [step_next h] at hentered
      rcases step_normalized callbacks (index + 1) _ entered hentered with heq | hnormalized
      · exact ⟨_, heq⟩
      · exact hnormalized

end EventBus

/-! ## Rust -/

namespace RustEvent

/-- Where `run_waterfall` is: going forward through the listeners, or resuming
the suspended ones. -/
inductive Phase (P β ε : Type)
  | forward (index : Nat) (payload : P)
  | backward (outcome : Except ε β)

/-- `run_waterfall` between two turns of its loops.  A suspended listener is
what it does with the response it awaits. -/
structure Running (P β ε : Type) where
  phase : Phase P β ε
  suspended : List (Except ε β → Middleware P β ε) := []
  entered : List (Arrival P) := []

/-- One turn of a loop.  A listener that ends drops its request channel or
wins the `select`; one that awaits `next` sends its request first. -/
def turn (callbacks : List (P → Middleware P β ε)) (terminal : P → β) (normalizeStep : Option (P → P))
    (nextAlreadyCalled : ε) (running : Running P β ε) : Running P β ε ⊕ Dispatched P β ε :=
  match running.phase with
  | .forward index payload =>
    match callbacks[index]? with
    | none =>
      .inl { running with
        phase := .backward (.ok (terminal payload)), entered := running.entered ++ [.terminal payload] }
    | some callback =>
      let entered := running.entered ++ [.listener index payload]
      match callback payload with
      | .ends outcome => .inl { running with phase := .backward outcome, entered }
      | .next replacement listener =>
        let requested := replacement.getD payload
        .inl
          { phase := .forward (index + 1) (normalized normalizeStep requested)
            suspended := listener :: running.suspended
            entered }
  | .backward outcome =>
    match running.suspended with
    | [] => .inr { outcome, entered := running.entered }
    | listener :: suspended =>
      .inl { running with phase := .backward ((listener outcome).settle nextAlreadyCalled), suspended }

variable {callbacks : List (P → Middleware P β ε)} {terminal : P → β} {normalizeStep : Option (P → P)} {reused : ε}

/-- From any listener on, the loops come back to the listeners suspended before
it with what the recursion returns, having entered the same. -/
theorem reaches_backward (index : Nat) (payload : P) (suspended : List (Except ε β → Middleware P β ε))
    (entered : List (Arrival P)) :
    let dispatched := EventBus.step terminal normalizeStep reused (callbacks.drop index) index payload
    Loop.Reaches (turn callbacks terminal normalizeStep reused) { phase := .forward index payload, suspended, entered }
      { phase := .backward dispatched.outcome, suspended, entered := entered ++ dispatched.entered } := by
  generalize hrest : callbacks.drop index = rest
  induction rest generalizing index payload suspended entered with
  | nil =>
    have hend : callbacks[index]? = none := by
      have hlength := List.drop_eq_nil_iff.mp hrest
      simp [hlength]
    refine Loop.Reaches.single ?_
    simp [turn, hend, EventBus.step]
  | cons callback rest ih =>
    have hcallback : callbacks[index]? = some callback := by
      have hget := congrArg List.head? hrest
      simpa using hget
    have hdrop : callbacks.drop (index + 1) = rest := by
      have htail := congrArg List.tail hrest
      simpa using htail
    cases h : callback payload with
    | ends outcome =>
      rw [EventBus.step_ends h]
      refine Loop.Reaches.single ?_
      simp [turn, hcallback, h]
    | next replacement listener =>
      rw [EventBus.step_next h]
      -- the listener is suspended, the rest of the chain runs, and the listener is resumed
      have hsuspend : Loop.Reaches (turn callbacks terminal normalizeStep reused)
          { phase := .forward index payload, suspended, entered }
          { phase := .forward (index + 1) (normalized normalizeStep (replacement.getD payload))
            suspended := listener :: suspended
            entered := entered ++ [.listener index payload] } := by
        refine Loop.Reaches.single ?_
        simp [turn, hcallback, h]
      have hbehind := ih (index + 1) (normalized normalizeStep (replacement.getD payload)) (listener :: suspended)
        (entered ++ [.listener index payload]) hdrop
      refine (hsuspend.trans hbehind).trans (Loop.Reaches.single ?_)
      simp [turn]

end RustEvent

/-- The loops of `run_waterfall` return what the recursion of
`EventBus.waterfall` returns and enter the same: each listener at most once, in
order of registration, and all after the first hand-off with a normalized
payload. -/
theorem waterfall_agrees (callbacks : List (P → Middleware P β ε)) (terminal : P → β) (normalizeStep : Option (P → P))
    (reused : ε) (payload : P) :
    let dispatched := EventBus.waterfall terminal normalizeStep reused callbacks payload
    Loop.Returns (RustEvent.turn callbacks terminal normalizeStep reused) { phase := .forward 0 payload } dispatched ∧
      (∃ count ≤ callbacks.length, dispatched.entered.filterMap Arrival.index? = List.range count) ∧
      ∀ entered ∈ dispatched.entered.tail, ∃ handed, entered.payload = normalized normalizeStep handed := by
  refine ⟨?_, ?_, EventBus.step_normalized_tail callbacks 0 payload⟩
  · have hreach := @RustEvent.reaches_backward P β ε callbacks terminal normalizeStep reused 0 payload [] []
    exact hreach.returns (.of_inr rfl)
  · obtain ⟨count, hcount, hindices⟩ := EventBus.step_indices callbacks 0 payload
    exact ⟨count, hcount, hindices.trans List.range_eq_range'.symm⟩

end MinionAgent
