import MinionAgent.Library.Loop
import Mathlib.Data.Rat.Floor

/-!
# MinionAgent.Auth.DeviceCode

Device-authorization polling (`auth/device_code.py`, `auth/device_code.rs`)
over a clock of exact rational seconds that advances by what is slept and by
what a poll takes.

* `abortableSleep` — a sleep in slices, with a look at the signal after each;
* `turn` — one turn of `poll_device_code_flow`: its set-up, or one pass of its
  loop;
* `World.events` — what the flow did: looks at the signal, slices, polls.

The two bindings have the same loop and compute its delays with functions of
their own (`Binding`).  Intervals and deadlines are finite; a server may send a
number that is not.
-/

namespace MinionAgent.DeviceCode

/-! ## Constants -/

def MINIMUM_INTERVAL_SECONDS : ℚ := 1
def DEFAULT_POLL_INTERVAL_SECONDS : ℚ := 5
def SLOW_DOWN_INCREMENT_SECONDS : ℚ := 5
def NON_FINITE_INTERVAL_FALLBACK_SECONDS : ℚ := 1 / 1000
def CANCEL_MESSAGE : String := "Login cancelled"
def TIMEOUT_MESSAGE : String := "Device flow timed out"
def SLOW_DOWN_TIMEOUT_MESSAGE : String :=
  "Device flow timed out after one or more slow_down responses. This is often caused by clock " ++
    "drift in WSL or VM environments. Please sync or restart the VM clock and try again."

/-- `poll_interval_seconds`: the longest slice of a sleep. -/
def SLICE_SECONDS : ℚ := 1 / 20

/-! ## What a poll reports -/

/-- An interval a server names: NaN and the infinities are numbers too. -/
inductive Reading
  | finite (seconds : ℚ)
  | nonFinite
deriving DecidableEq

inductive DevicePollResult (T : Type)
  | pending
  | slowDown (intervalSeconds : Option Reading)
  | failed (message : String)
  | complete (value : T)

inductive DeviceFlowError
  | cancelled (message : String)
  | timedOut (message : String)
  | failed (message : String)

/-- One poll: how long it took, and what it reported. -/
structure Attempt (T : Type) where
  took : ℚ
  took_nonneg : 0 ≤ took
  result : DevicePollResult T

/-- The options of a flow.  A signal is what each look at it sees. -/
structure Options where
  intervalSeconds : Option ℚ
  expiresInSeconds : Option ℚ
  waitBeforeFirstPoll : Bool
  signal : Option (ℕ → Bool)

/-- What a flow meets: the clock's reading at the start, and the polls. -/
structure Surroundings (T : Type) where
  start : ℚ
  attempts : ℕ → Attempt T

/-! ## The delays of the two bindings -/

namespace Python

def needsSetTimeoutClamp (seconds : ℚ) : Bool :=
  let milliseconds := seconds * 1000
  !(decide (1 ≤ milliseconds) && decide (milliseconds ≤ 2147483647))

def floorToWholeMilliseconds (seconds : ℚ) : ℚ := ⌊seconds * 1000⌋ / 1000

/-- The start of `abortable_sleep`. -/
def delay (seconds : ℚ) : ℚ :=
  if needsSetTimeoutClamp seconds then NON_FINITE_INTERVAL_FALLBACK_SECONDS else floorToWholeMilliseconds seconds

def initialInterval (intervalSeconds : Option ℚ) : ℚ :=
  max MINIMUM_INTERVAL_SECONDS (floorToWholeMilliseconds (intervalSeconds.getD DEFAULT_POLL_INTERVAL_SECONDS))

/-- The interval after a `slow_down`. -/
def slowedInterval (interval : ℚ) : Option Reading → ℚ
  | some (.finite serverInterval) =>
    if 0 < serverInterval then max MINIMUM_INTERVAL_SECONDS (floorToWholeMilliseconds serverInterval)
    else max MINIMUM_INTERVAL_SECONDS (interval + SLOW_DOWN_INCREMENT_SECONDS)
  | _ => max MINIMUM_INTERVAL_SECONDS (interval + SLOW_DOWN_INCREMENT_SECONDS)

end Python

namespace Rust

def floorMilliseconds (seconds : ℚ) : ℚ := ⌊seconds * 1000⌋ / 1000

def normalizeTimerDelay (seconds : ℚ) : ℚ :=
  let milliseconds := seconds * 1000
  if ¬ (1 ≤ milliseconds ∧ milliseconds ≤ 2147483647) then NON_FINITE_INTERVAL_FALLBACK_SECONDS
  else ⌊milliseconds⌋ / 1000

def initialInterval (intervalSeconds : Option ℚ) : ℚ :=
  max (floorMilliseconds (intervalSeconds.getD DEFAULT_POLL_INTERVAL_SECONDS)) MINIMUM_INTERVAL_SECONDS

def slowedInterval (interval : ℚ) : Option Reading → ℚ
  | some (.finite value) =>
    if 0 < value then max (floorMilliseconds value) MINIMUM_INTERVAL_SECONDS
    else max (interval + SLOW_DOWN_INCREMENT_SECONDS) MINIMUM_INTERVAL_SECONDS
  | _ => max (interval + SLOW_DOWN_INCREMENT_SECONDS) MINIMUM_INTERVAL_SECONDS

end Rust

inductive Binding
  | python | rust

namespace Binding

def delay : Binding → ℚ → ℚ
  | python => Python.delay
  | rust => Rust.normalizeTimerDelay

def initialInterval : Binding → Option ℚ → ℚ
  | python => Python.initialInterval
  | rust => Rust.initialInterval

def slowedInterval : Binding → ℚ → Option Reading → ℚ
  | python => Python.slowedInterval
  | rust => Rust.slowedInterval

end Binding

/-! ## The flow -/

/-- A poll that was made: when, what it reported, and the interval in force after it. -/
structure Polled (T : Type) where
  start : ℚ
  finish : ℚ
  result : DevicePollResult T
  interval : ℚ

inductive Event (T : Type)
  | observed (aborted : Bool)
  | slept (seconds : ℚ)
  | polled (poll : Polled T)

/-- The clock, the polls and looks made so far, and what happened. -/
structure World (T : Type) where
  now : ℚ
  attempts : ℕ
  looks : ℕ
  events : List (Event T)

variable {T : Type}

/-- A look at the signal, when there is one. -/
def checkSignal (signal : Option (ℕ → Bool)) (w : World T) : World T × Bool :=
  match signal with
  | none => (w, false)
  | some aborted =>
    ({ w with looks := w.looks + 1, events := w.events ++ [.observed (aborted w.looks)] }, aborted w.looks)

/-- The loop of `abortable_sleep`; `true` says that it ended with the abort. -/
def sleepLoop (signal : Option (ℕ → Bool)) : ℕ → ℚ → World T → World T × Bool
  | 0, _, w => (w, false)
  | fuel + 1, remaining, w =>
    if 0 < remaining then
      let step := min SLICE_SECONDS remaining
      match checkSignal signal { w with now := w.now + step, events := w.events ++ [.slept step] } with
      | (w, true) => (w, true)
      | (w, false) => sleepLoop signal fuel (remaining - step) w
    else (w, false)

/-- The slices a sleep takes at most. -/
def slices (seconds : ℚ) : ℕ := ⌈seconds / SLICE_SECONDS⌉₊

def abortableSleep (b : Binding) (seconds : ℚ) (signal : Option (ℕ → Bool)) (w : World T) : World T × Bool :=
  let seconds := b.delay seconds
  match checkSignal signal w with
  | (w, true) => (w, true)
  | (w, false) => sleepLoop signal (slices seconds) seconds w

/-- What is left until the deadline; nothing says that there is none. -/
def left (deadline : Option ℚ) (now : ℚ) : Option ℚ := deadline.map (· - now)

/-- `now < deadline`. -/
def beforeDeadline (deadline : Option ℚ) (now : ℚ) : Bool :=
  match deadline with
  | none => true
  | some deadline => decide (now < deadline)

/-- `min(interval, remaining)`. -/
def cap (interval : ℚ) : Option ℚ → ℚ
  | none => interval
  | some remaining => min interval remaining

structure FlowState (T : Type) where
  world : World T
  interval : ℚ
  slowDownResponses : ℕ

/-- Before the loop, or at its head. -/
inductive At (T : Type)
  | start
  | head (s : FlowState T)

/-- How a flow ends, and what happened until then. -/
abbrev Ended (T : Type) := Except DeviceFlowError T × World T

def deadline (options : Options) (around : Surroundings T) : Option ℚ :=
  options.expiresInSeconds.map (around.start + ·)

/-- The wait at the end of a pass, and before the loop when it is asked for. -/
def waitAndGoOn (b : Binding) (options : Options) (deadline : Option ℚ) (s : FlowState T) : At T ⊕ Ended T :=
  match abortableSleep b (cap s.interval (left deadline s.world.now)) options.signal s.world with
  | (w, true) => .inr (.error (.cancelled CANCEL_MESSAGE), w)
  | (w, false) => .inl (.head { s with world := w })

def timedOut (s : FlowState T) : Ended T :=
  (.error (.timedOut (if 0 < s.slowDownResponses then SLOW_DOWN_TIMEOUT_MESSAGE else TIMEOUT_MESSAGE)), s.world)

/-- What follows a poll: its result ends the flow, or the flow waits while there is time. -/
def afterPoll (b : Binding) (options : Options) (deadline : Option ℚ) (s : FlowState T) (attempt : Attempt T)
    (w : World T) : At T ⊕ Ended T :=
  let finish := w.now + attempt.took
  let record := fun interval : ℚ =>
    { w with
      now := finish, attempts := w.attempts + 1,
      events := w.events ++ [.polled { start := w.now, finish, result := attempt.result, interval }] }
  let goOn := fun s : FlowState T =>
    if (left deadline s.world.now).any (· ≤ 0) then .inr (timedOut s) else waitAndGoOn b options deadline s
  match attempt.result with
  | .complete value => .inr (.ok value, record s.interval)
  | .failed message => .inr (.error (.failed message), record s.interval)
  | .slowDown serverInterval =>
    let interval := b.slowedInterval s.interval serverInterval
    goOn { world := record interval, interval, slowDownResponses := s.slowDownResponses + 1 }
  | .pending => goOn { s with world := record s.interval }

/-- One turn of `poll_device_code_flow`. -/
def turn (b : Binding) (options : Options) (around : Surroundings T) : At T → At T ⊕ Ended T
  | .start =>
    let s : FlowState T :=
      { world := { now := around.start, attempts := 0, looks := 0, events := [] }
        interval := b.initialInterval options.intervalSeconds
        slowDownResponses := 0 }
    if options.waitBeforeFirstPoll && !(left (deadline options around) s.world.now).any (· ≤ 0) then
      waitAndGoOn b options (deadline options around) s
    else .inl (.head s)
  | .head s =>
    if beforeDeadline (deadline options around) s.world.now then
      match checkSignal options.signal s.world with
      | (w, true) => .inr (.error (.cancelled CANCEL_MESSAGE), w)
      | (w, false) => afterPoll b options (deadline options around) s (around.attempts w.attempts) w
    else .inr (timedOut s)

end MinionAgent.DeviceCode
