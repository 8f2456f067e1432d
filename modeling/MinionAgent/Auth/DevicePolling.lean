import MinionAgent.Auth.DeviceCode
import Mathlib.Tactic.Linarith
import Mathlib.Tactic.Positivity
import Mathlib.Tactic.FieldSimp

/-!
# MinionAgent.Auth.DevicePolling

What device-code polling keeps of its interval and its deadline.

* `Respects` — the law of what a flow has done: no poll at or after the
  deadline, the interval in force after each poll, the wait before the next
  one, nothing after an abort that was seen;
* `turn_respects` — one turn keeps it;
* `device_polling` — every run of both bindings keeps it, and ends when there is
  a deadline.

The wait between two polls is the interval in force when that fits before the
deadline and in a timer; otherwise it is what is left, in whole milliseconds, or
one millisecond.
-/

namespace MinionAgent.DeviceCode

variable {T : Type}

/-! ## The law -/

/-- The longest delay a timer takes. -/
def LONGEST_DELAY : ℚ := 2147483647 / 1000

/-- A delay as a timer takes it: whole milliseconds, and one for what it does not take. -/
def timerDelay (seconds : ℚ) : ℚ :=
  if 1 / 1000 ≤ seconds ∧ seconds ≤ LONGEST_DELAY then ⌊seconds * 1000⌋ / 1000 else 1 / 1000

/-- The interval in force after a result: five seconds more after a `slow_down` that names no
usable interval, and at least one second of the named one. -/
def nextInterval (interval : ℚ) : DevicePollResult T → ℚ
  | .slowDown (some (.finite named)) => if 0 < named then max 1 (⌊named * 1000⌋ / 1000) else interval + 5
  | .slowDown _ => interval + 5
  | _ => interval

/-- The interval in force at the start. -/
def firstInterval (options : Options) : ℚ := max 1 (⌊options.intervalSeconds.getD 5 * 1000⌋ / 1000)

/-- The polls among what happened. -/
def polls (events : List (Event T)) : List (Polled T) :=
  events.filterMap fun
    | .polled poll => some poll
    | _ => none

/-- One poll comes after another. -/
structure Follows (deadline : Option ℚ) (p q : Polled T) : Prop where
  interval : q.interval = nextInterval p.interval q.result
  waited : q.start - p.finish = timerDelay (cap p.interval (left deadline p.finish))
  gap : p.interval ≤ q.start - p.finish ↔
    p.interval ≤ LONGEST_DELAY ∧ ∀ d ∈ deadline, p.interval ≤ d - p.finish

/-- The law of polling. -/
structure Respects (options : Options) (deadline : Option ℚ) (events : List (Event T)) : Prop where
  before : ∀ p ∈ polls events, ∀ d ∈ deadline, p.start < d
  least : ∀ p ∈ polls events, 1 ≤ p.interval
  first : ∀ p ∈ (polls events).head?, p.interval = nextInterval (firstInterval options) p.result
  next : (polls events).IsChain (Follows deadline)
  lastLook : .observed true ∉ events.dropLast

/-- No abort was seen. -/
def Clear (events : List (Event T)) : Prop := .observed true ∉ events

/-- The flow ended because an abort was seen. -/
def Cancelled (outcome : Except DeviceFlowError T) : Prop := outcome = .error (.cancelled CANCEL_MESSAGE)

/-- What a flow that ended keeps: the law, and it was cancelled exactly when an abort is the last thing seen. -/
def EndsSoundly (options : Options) (around : Surroundings T) (ended : Ended T) : Prop :=
  Respects options (deadline options around) ended.2.events ∧
    (Cancelled ended.1 ↔ ended.2.events.getLast? = some (.observed true))

/-! ## The delays -/

/-- A whole number of milliseconds. -/
def WholeMilliseconds (seconds : ℚ) : Prop := ∃ n : ℤ, seconds = n / 1000

theorem needsSetTimeoutClamp_iff (seconds : ℚ) :
    Python.needsSetTimeoutClamp seconds = true ↔ ¬ (1 ≤ seconds * 1000 ∧ seconds * 1000 ≤ 2147483647) := by
  simp only [Python.needsSetTimeoutClamp, Bool.not_eq_true', Bool.and_eq_false_iff, decide_eq_false_iff_not]
  tauto

theorem python_delay (seconds : ℚ) : Python.delay seconds = timerDelay seconds := by
  have hiff : (1 ≤ seconds * 1000 ∧ seconds * 1000 ≤ 2147483647) ↔ 1 / 1000 ≤ seconds ∧ seconds ≤ LONGEST_DELAY := by
    rw [LONGEST_DELAY, div_le_iff₀ (by norm_num), le_div_iff₀ (by norm_num)]
  by_cases h : 1 / 1000 ≤ seconds ∧ seconds ≤ LONGEST_DELAY
  · have hvalid : ¬ Python.needsSetTimeoutClamp seconds = true := by
      rw [needsSetTimeoutClamp_iff, not_not]
      exact hiff.mpr h
    rw [Python.delay, if_neg hvalid, timerDelay, if_pos h]
    rfl
  · have hclamped : Python.needsSetTimeoutClamp seconds = true :=
      (needsSetTimeoutClamp_iff seconds).mpr (mt hiff.mp h)
    rw [Python.delay, if_pos hclamped, timerDelay, if_neg h]
    rfl

theorem rust_delay (seconds : ℚ) : Rust.normalizeTimerDelay seconds = Python.delay seconds := by
  by_cases h : 1 ≤ seconds * 1000 ∧ seconds * 1000 ≤ 2147483647
  · have hvalid : ¬ Python.needsSetTimeoutClamp seconds = true := by
      rw [needsSetTimeoutClamp_iff, not_not]
      exact h
    rw [Rust.normalizeTimerDelay, if_neg (not_not.mpr h), Python.delay, if_neg hvalid]
    rfl
  · rw [Rust.normalizeTimerDelay, if_pos h, Python.delay, if_pos ((needsSetTimeoutClamp_iff seconds).mpr h)]

/-- Both bindings hand the timer the same delay. -/
theorem delay_eq (b : Binding) (seconds : ℚ) : b.delay seconds = timerDelay seconds := by
  cases b with
  | python => exact python_delay seconds
  | rust => exact (rust_delay seconds).trans (python_delay seconds)

theorem initialInterval_eq (b : Binding) (options : Options) :
    b.initialInterval options.intervalSeconds = firstInterval options := by
  cases b with
  | python => rfl
  | rust => exact max_comm _ _

theorem slowedInterval_eq (b : Binding) {interval : ℚ} (h : 1 ≤ interval) (named : Option Reading) :
    b.slowedInterval interval named = nextInterval interval (.slowDown named : DevicePollResult T) := by
  have hmore : max 1 (interval + 5) = interval + 5 := max_eq_right (by linarith)
  have hmore' : max (interval + 5) 1 = interval + 5 := max_eq_left (by linarith)
  cases b with
  | python =>
    rcases named with _ | reading | _ <;>
      simp [Binding.slowedInterval, Python.slowedInterval, nextInterval, MINIMUM_INTERVAL_SECONDS,
        SLOW_DOWN_INCREMENT_SECONDS, Python.floorToWholeMilliseconds, hmore]
  | rust =>
    rcases named with _ | reading | _ <;>
      simp [Binding.slowedInterval, Rust.slowedInterval, nextInterval, MINIMUM_INTERVAL_SECONDS,
        SLOW_DOWN_INCREMENT_SECONDS, Rust.floorMilliseconds, hmore', max_comm]

theorem timerDelay_pos (seconds : ℚ) : 1 / 1000 ≤ timerDelay seconds := by
  unfold timerDelay
  split
  · next h =>
    have hfloor : (1 : ℤ) ≤ ⌊seconds * 1000⌋ := Int.le_floor.mpr (by push_cast; linarith [h.1])
    have hcast : (1 : ℚ) ≤ ⌊seconds * 1000⌋ := by exact_mod_cast hfloor
    linarith
  · exact le_refl _

theorem timerDelay_le {seconds : ℚ} (h : 1 / 1000 ≤ seconds) : timerDelay seconds ≤ seconds := by
  unfold timerDelay
  split
  · have hfloor : (⌊seconds * 1000⌋ : ℚ) ≤ seconds * 1000 := Int.floor_le _
    linarith
  · exact h

theorem timerDelay_whole {seconds : ℚ} (hwhole : WholeMilliseconds seconds) (hleast : 1 / 1000 ≤ seconds)
    (hmost : seconds ≤ LONGEST_DELAY) : timerDelay seconds = seconds := by
  obtain ⟨n, rfl⟩ := hwhole
  have hms : (n : ℚ) / 1000 * 1000 = n := by field_simp
  rw [timerDelay, if_pos ⟨hleast, hmost⟩, hms, Int.floor_intCast]

/-- The interval in force elapses exactly when a timer takes it and it fits before the deadline. -/
theorem interval_le_delay_iff {interval : ℚ} {remaining : Option ℚ} (hleast : 1 ≤ interval)
    (hwhole : WholeMilliseconds interval) :
    interval ≤ timerDelay (cap interval remaining) ↔
      interval ≤ LONGEST_DELAY ∧ ∀ r ∈ remaining, interval ≤ r := by
  have hcap : cap interval remaining = interval ↔ ∀ r ∈ remaining, interval ≤ r := by
    cases remaining <;> simp [cap]
  have hcapLe : cap interval remaining ≤ interval := by
    cases remaining <;> simp [cap]
  constructor
  · intro h
    have hfits : 1 / 1000 ≤ cap interval remaining ∧ cap interval remaining ≤ LONGEST_DELAY := by
      by_contra hout
      rw [timerDelay, if_neg hout] at h
      linarith
    have heq : cap interval remaining = interval :=
      le_antisymm hcapLe (h.trans (timerDelay_le hfits.1))
    exact ⟨heq ▸ hfits.2, hcap.mp heq⟩
  · rintro ⟨hmost, hfits⟩
    rw [hcap.mpr hfits, timerDelay_whole hwhole (by linarith) hmost]

theorem one_le_nextInterval {interval : ℚ} (h : 1 ≤ interval) (result : DevicePollResult T) :
    1 ≤ nextInterval interval result := by
  unfold nextInterval
  split
  · split
    · exact le_max_left _ _
    · linarith
  · linarith
  · exact h

theorem wholeMilliseconds_max (n : ℤ) : WholeMilliseconds (max 1 ((n : ℚ) / 1000)) := by
  rcases le_total (1 : ℚ) (n / 1000) with h | h
  · exact ⟨n, max_eq_right h⟩
  · exact ⟨1000, by rw [max_eq_left h]; norm_num⟩

theorem wholeMilliseconds_nextInterval {interval : ℚ} (h : WholeMilliseconds interval)
    (result : DevicePollResult T) : WholeMilliseconds (nextInterval interval result) := by
  have hmore : WholeMilliseconds (interval + 5) := by
    obtain ⟨n, rfl⟩ := h
    exact ⟨n + 5000, by push_cast; ring⟩
  unfold nextInterval
  split
  · split
    · exact wholeMilliseconds_max _
    · exact hmore
  · exact hmore
  · exact h

/-! ## Looks and slices -/

/-- An event of a sleep, or of a look that saw no abort. -/
def Quiet : Event T → Prop
  | .observed aborted => aborted = false
  | .slept _ => True
  | .polled _ => False

/-- What a world becomes by looks and slices only; an abort that is seen is the last of them. -/
structure Rests (w w' : World T) (aborted : Bool) : Prop where
  events : ∃ quiet, (∀ e ∈ quiet, Quiet e) ∧
    w'.events = w.events ++ (quiet ++ if aborted then [.observed true] else [])

@[simp] theorem polls_append (events more : List (Event T)) : polls (events ++ more) = polls events ++ polls more :=
  List.filterMap_append

theorem polls_eq_nil_of_quiet {events : List (Event T)} (h : ∀ e ∈ events, Quiet e) : polls events = [] := by
  rw [polls, List.filterMap_eq_nil_iff]
  intro e he
  cases e with
  | observed aborted => rfl
  | slept seconds => rfl
  | polled poll => exact (h _ he).elim

variable {options : Options} {s : FlowState T} {w w' : World T} {aborted : Bool}

theorem Rests.polls (h : Rests w w' aborted) : DeviceCode.polls w'.events = DeviceCode.polls w.events := by
  obtain ⟨quiet, hquiet, heq⟩ := h.events
  rw [heq, polls_append, polls_append, polls_eq_nil_of_quiet hquiet]
  cases aborted <;> simp [DeviceCode.polls]

theorem Rests.trans {w'' : World T} (h : Rests w w' false) (h' : Rests w' w'' aborted) : Rests w w'' aborted := by
  obtain ⟨quiet, hquiet, heq⟩ := h.events
  obtain ⟨quiet', hquiet', heq'⟩ := h'.events
  refine ⟨quiet ++ quiet', ?_, ?_⟩
  · intro e he
    rcases List.mem_append.mp he with he | he
    · exact hquiet e he
    · exact hquiet' e he
  · simp [heq', heq]

theorem checkSignal_spec {signal : Option (ℕ → Bool)} (h : checkSignal signal w = (w', aborted)) :
    Rests w w' aborted ∧ w'.now = w.now := by
  cases signal with
  | none =>
    obtain ⟨rfl, rfl⟩ := Prod.mk.inj h
    exact ⟨⟨[], by simp, by simp⟩, rfl⟩
  | some seen =>
    obtain ⟨rfl, rfl⟩ := Prod.mk.inj h
    refine ⟨?_, rfl⟩
    cases hseen : seen w.looks with
    | false => exact ⟨[.observed false], by simp [Quiet], by simp⟩
    | true => exact ⟨[], by simp, by simp⟩

/-- A slice of a sleep. -/
theorem rests_slept (w : World T) (now : ℚ) (seconds : ℚ) :
    Rests w { w with now, events := w.events ++ [.slept seconds] } false :=
  ⟨[.slept seconds], by simp [Quiet], by simp⟩

theorem sleepLoop_spec {signal : Option (ℕ → Bool)} {fuel : ℕ} {remaining : ℚ} (hnonneg : 0 ≤ remaining)
    (hfuel : remaining ≤ fuel * SLICE_SECONDS) (h : sleepLoop signal fuel remaining w = (w', aborted)) :
    Rests w w' aborted ∧ (aborted = false → w'.now = w.now + remaining) := by
  induction fuel generalizing remaining w with
  | zero =>
    obtain ⟨rfl, rfl⟩ := Prod.mk.inj h
    have hzero : remaining = 0 := le_antisymm (by simpa using hfuel) hnonneg
    exact ⟨⟨[], by simp, by simp⟩, fun _ => by simp [hzero]⟩
  | succ fuel ih =>
    have hslice : (0 : ℚ) < SLICE_SECONDS := by norm_num [SLICE_SECONDS]
    rw [sleepLoop] at h
    by_cases hpos : 0 < remaining
    · rw [if_pos hpos] at h
      have hslept := rests_slept w (w.now + min SLICE_SECONDS remaining) (min SLICE_SECONDS remaining)
      cases hlook : checkSignal signal
          { w with
            now := w.now + min SLICE_SECONDS remaining
            events := w.events ++ [.slept (min SLICE_SECONDS remaining)] } with
      | mk w₁ seen =>
        obtain ⟨hrests, hnow⟩ := checkSignal_spec hlook
        cases seen with
        | true =>
          simp only [hlook] at h
          obtain ⟨rfl, rfl⟩ := Prod.mk.inj h
          exact ⟨hslept.trans hrests, fun hfalse => by cases hfalse⟩
        | false =>
          simp only [hlook] at h
          have hleft : 0 ≤ remaining - min SLICE_SECONDS remaining := by
            have := min_le_right SLICE_SECONDS remaining
            linarith
          have hfuel' : remaining - min SLICE_SECONDS remaining ≤ fuel * SLICE_SECONDS := by
            push_cast at hfuel
            rcases le_total SLICE_SECONDS remaining with hle | hle
            · rw [min_eq_left hle]
              linarith
            · rw [min_eq_right hle, sub_self]
              positivity
          obtain ⟨hrest, hend⟩ := ih hleft hfuel' h
          refine ⟨(hslept.trans hrests).trans hrest, fun hfalse => ?_⟩
          rw [hend hfalse, hnow]
          ring
    · rw [if_neg hpos] at h
      obtain ⟨rfl, rfl⟩ := Prod.mk.inj h
      have hzero : remaining = 0 := le_antisymm (not_lt.mp hpos) hnonneg
      exact ⟨⟨[], by simp, by simp⟩, fun _ => by simp [hzero]⟩

/-- A sleep takes the timer's delay, unless an abort is seen. -/
theorem abortableSleep_spec {b : Binding} {seconds : ℚ} {signal : Option (ℕ → Bool)}
    (h : abortableSleep b seconds signal w = (w', aborted)) :
    Rests w w' aborted ∧ (aborted = false → w'.now = w.now + timerDelay seconds) := by
  have hslice : (0 : ℚ) < SLICE_SECONDS := by norm_num [SLICE_SECONDS]
  rw [abortableSleep, delay_eq] at h
  cases hlook : checkSignal signal w with
  | mk w₁ seen =>
    obtain ⟨hrests, hnow⟩ := checkSignal_spec hlook
    cases seen with
    | true =>
      simp only [hlook] at h
      obtain ⟨rfl, rfl⟩ := Prod.mk.inj h
      exact ⟨hrests, fun hfalse => by cases hfalse⟩
    | false =>
      simp only [hlook] at h
      have hpos : 0 ≤ timerDelay seconds := le_trans (by norm_num) (timerDelay_pos seconds)
      have hfuel : timerDelay seconds ≤ slices (timerDelay seconds) * SLICE_SECONDS := by
        rw [← div_le_iff₀ hslice]
        exact Nat.le_ceil _
      obtain ⟨hrest, hend⟩ := sleepLoop_spec hpos hfuel h
      exact ⟨hrests.trans hrest, fun hfalse => by rw [hend hfalse, hnow]⟩

/-! ## One turn -/

theorem Rests.clear (h : Rests w w' false) (hclear : Clear w.events) : Clear w'.events := by
  obtain ⟨quiet, hquiet, heq⟩ := h.events
  intro hmem
  rw [heq] at hmem
  rcases List.mem_append.mp hmem with hmem | hmem
  · exact hclear hmem
  · have hobserved : Quiet (.observed true : Event T) := hquiet _ (by simpa using hmem)
    simp [Quiet] at hobserved

/-- Looks and slices keep the law. -/
theorem Rests.respects {deadline : Option ℚ} (h : Rests w w' aborted) (hclear : Clear w.events)
    (hlaw : Respects options deadline w.events) : Respects options deadline w'.events where
  before := h.polls ▸ hlaw.before
  least := h.polls ▸ hlaw.least
  first := h.polls ▸ hlaw.first
  next := h.polls ▸ hlaw.next
  lastLook := by
    obtain ⟨quiet, hquiet, heq⟩ := h.events
    have hnone : Clear (w.events ++ quiet) :=
      @Rests.clear T w { w with events := w.events ++ quiet } ⟨quiet, hquiet, by simp⟩ hclear
    cases aborted with
    | false =>
      rw [heq]
      intro hmem
      exact hnone (by simpa using List.mem_of_mem_dropLast hmem)
    | true =>
      rw [heq, ← List.append_assoc, if_pos rfl, List.dropLast_concat]
      exact hnone

theorem Rests.getLast_aborted (h : Rests w w' true) : w'.events.getLast? = some (.observed true) := by
  obtain ⟨quiet, -, heq⟩ := h.events
  rw [heq, ← List.append_assoc]
  simp

theorem getLast_ne_of_clear {events : List (Event T)} (h : Clear events) :
    events.getLast? ≠ some (.observed true) := fun hlast => h (List.mem_of_getLast? hlast)

theorem waitAndGoOn_inl {b : Binding} {deadline : Option ℚ} {a : At T}
    (h : waitAndGoOn b options deadline s = .inl a) :
    ∃ w, a = .head { s with world := w } ∧ Rests s.world w false ∧
      w.now = s.world.now + timerDelay (cap s.interval (left deadline s.world.now)) := by
  rw [waitAndGoOn] at h
  cases hsleep : abortableSleep b (cap s.interval (left deadline s.world.now)) options.signal s.world with
  | mk w aborted =>
    obtain ⟨hrests, hnow⟩ := abortableSleep_spec hsleep
    cases aborted with
    | true => simp [hsleep] at h
    | false =>
      simp only [hsleep, Sum.inl.injEq] at h
      exact ⟨w, h.symm, hrests, hnow rfl⟩

theorem waitAndGoOn_inr {b : Binding} {deadline : Option ℚ} {ended : Ended T}
    (h : waitAndGoOn b options deadline s = .inr ended) : Cancelled ended.1 ∧ Rests s.world ended.2 true := by
  rw [waitAndGoOn] at h
  cases hsleep : abortableSleep b (cap s.interval (left deadline s.world.now)) options.signal s.world with
  | mk w aborted =>
    obtain ⟨hrests, -⟩ := abortableSleep_spec hsleep
    cases aborted with
    | true =>
      simp only [hsleep, Sum.inr.injEq] at h
      subst h
      exact ⟨rfl, hrests⟩
    | false => simp [hsleep] at h

/-- The world after a poll. -/
def World.record (w : World T) (p : Polled T) : World T :=
  { w with now := p.finish, attempts := w.attempts + 1, events := w.events ++ [.polled p] }

/-- The poll that an attempt makes of a state. -/
def pollOf (s : FlowState T) (attempt : Attempt T) (w : World T) : Polled T where
  start := w.now
  finish := w.now + attempt.took
  result := attempt.result
  interval := nextInterval s.interval attempt.result

theorem left_any_iff (deadline : Option ℚ) (now : ℚ) :
    (left deadline now).any (· ≤ 0) = true ↔ ∃ d ∈ deadline, d ≤ now := by
  cases deadline <;> simp [left]

/-- What a poll leads to: the flow ends with its result or at the deadline, or it waits. -/
theorem afterPoll_cases (b : Binding) (options : Options) (deadline : Option ℚ) (attempt : Attempt T)
    (w : World T) (hleast : 1 ≤ s.interval) : let p := pollOf s attempt w
    (∃ outcome, afterPoll b options deadline s attempt w = .inr (outcome, w.record p) ∧ ¬ Cancelled outcome) ∨
      ∃ slowDowns, (∀ d ∈ deadline, p.finish < d) ∧ afterPoll b options deadline s attempt w =
        waitAndGoOn b options deadline ⟨w.record p, p.interval, slowDowns⟩ := by
  intro p
  have hgoOn : ∀ slowDowns,
      (∃ outcome, (if (left deadline p.finish).any (· ≤ 0) then .inr (timedOut ⟨w.record p, p.interval, slowDowns⟩)
        else waitAndGoOn b options deadline ⟨w.record p, p.interval, slowDowns⟩) = .inr (outcome, w.record p) ∧
          ¬ Cancelled outcome) ∨
      (∀ d ∈ deadline, p.finish < d) ∧
        (if (left deadline p.finish).any (· ≤ 0) then .inr (timedOut ⟨w.record p, p.interval, slowDowns⟩)
          else waitAndGoOn b options deadline ⟨w.record p, p.interval, slowDowns⟩) =
        waitAndGoOn b options deadline ⟨w.record p, p.interval, slowDowns⟩ := by
    intro slowDowns
    by_cases hover : (left deadline p.finish).any (· ≤ 0) = true
    · rw [if_pos hover]
      exact Or.inl ⟨_, rfl, by simp [Cancelled]⟩
    · rw [if_neg hover]
      refine Or.inr ⟨fun d hd => ?_, rfl⟩
      by_contra hle
      exact hover ((left_any_iff deadline p.finish).mpr ⟨d, hd, not_lt.mp hle⟩)
  cases hresult : attempt.result with
  | complete value =>
    have hp : p.interval = s.interval := by simp [p, pollOf, hresult, nextInterval]
    refine Or.inl ⟨.ok value, ?_, by simp [Cancelled]⟩
    simp [afterPoll, hresult, World.record, p, pollOf, nextInterval]
  | failed message =>
    refine Or.inl ⟨.error (.failed message), ?_, by simp [Cancelled]⟩
    simp [afterPoll, hresult, World.record, p, pollOf, nextInterval]
  | pending =>
    have hafter : afterPoll b options deadline s attempt w =
        if (left deadline p.finish).any (· ≤ 0) then .inr (timedOut ⟨w.record p, p.interval, s.slowDownResponses⟩)
        else waitAndGoOn b options deadline ⟨w.record p, p.interval, s.slowDownResponses⟩ := by
      simp [afterPoll, hresult, World.record, p, pollOf, nextInterval]
    rw [hafter]
    exact (hgoOn s.slowDownResponses).imp id fun h => ⟨_, h⟩
  | slowDown named =>
    have hinterval : b.slowedInterval s.interval named = p.interval := by
      simp only [p, pollOf, hresult]
      exact slowedInterval_eq b hleast named
    have hafter : afterPoll b options deadline s attempt w =
        if (left deadline p.finish).any (· ≤ 0) then
          .inr (timedOut ⟨w.record p, p.interval, s.slowDownResponses + 1⟩)
        else waitAndGoOn b options deadline ⟨w.record p, p.interval, s.slowDownResponses + 1⟩ := by
      simp only [afterPoll, hresult, hinterval]
      simp [World.record, p, pollOf, hresult]
    rw [hafter]
    exact (hgoOn (s.slowDownResponses + 1)).imp id fun h => ⟨_, h⟩

/-- What holds at the head of the loop: the law, and where the flow is in it. -/
structure Resumes (options : Options) (deadline : Option ℚ) (s : FlowState T) : Prop where
  respects : Respects options deadline s.world.events
  clear : Clear s.world.events
  least : 1 ≤ s.interval
  whole : WholeMilliseconds s.interval
  unpolled : polls s.world.events = [] → s.interval = firstInterval options
  waited : ∀ p ∈ (polls s.world.events).getLast?, s.interval = p.interval ∧
    s.world.now - p.finish = timerDelay (cap p.interval (left deadline p.finish))

/-- Nothing has happened yet. -/
theorem Respects.nil (options : Options) (deadline : Option ℚ) : Respects options deadline ([] : List (Event T)) :=
  ⟨by simp [polls], by simp [polls], by simp [polls], by simp [polls], by simp⟩

/-- A poll that is due keeps the law. -/
theorem Resumes.respects_record {deadline : Option ℚ} (h : Resumes options deadline s)
    (hrests : Rests s.world w false) (hnow : w.now = s.world.now) (hbefore : ∀ d ∈ deadline, w.now < d)
    (attempt : Attempt T) : Respects options deadline (w.record (pollOf s attempt w)).events := by
  have hlaw := hrests.respects h.clear h.respects
  have hpolls : polls (w.record (pollOf s attempt w)).events = polls s.world.events ++ [pollOf s attempt w] := by
    rw [World.record, polls_append, hrests.polls]
    rfl
  constructor
  · rw [hpolls]
    intro p hp d hd
    rcases List.mem_append.mp hp with hp | hp
    · exact h.respects.before p hp d hd
    · obtain rfl := List.mem_singleton.mp hp
      exact hbefore d hd
  · rw [hpolls]
    intro p hp
    rcases List.mem_append.mp hp with hp | hp
    · exact h.respects.least p hp
    · obtain rfl := List.mem_singleton.mp hp
      exact one_le_nextInterval h.least attempt.result
  · rw [hpolls]
    intro p hp
    cases hfirst : polls s.world.events with
    | nil =>
      obtain rfl : pollOf s attempt w = p := by simpa [hfirst] using hp
      rw [← h.unpolled hfirst]
      rfl
    | cons q rest =>
      obtain rfl : q = p := by simpa [hfirst] using hp
      exact h.respects.first q (by simp [hfirst])
  · rw [hpolls, List.isChain_append]
    refine ⟨h.respects.next, List.isChain_singleton _, ?_⟩
    intro p hp q hq
    obtain rfl : pollOf s attempt w = q := by simpa using hq
    obtain ⟨hinterval, hwaited⟩ := h.waited p hp
    have hgap : (pollOf s attempt w).start - p.finish = timerDelay (cap p.interval (left deadline p.finish)) := by
      rw [← hwaited, ← hnow]
      rfl
    refine ⟨?_, hgap, ?_⟩
    · rw [← hinterval]
      rfl
    · rw [hgap, interval_le_delay_iff (hinterval ▸ h.least) (hinterval ▸ h.whole)]
      cases deadline <;> simp [left]
  · rw [World.record, List.dropLast_concat]
    exact hrests.clear h.clear

/-- Where the flow is after a wait. -/
theorem resumes_of_rests {deadline : Option ℚ} (hrespects : Respects options deadline s.world.events)
    (hclear : Clear s.world.events) (hleast : 1 ≤ s.interval) (hwhole : WholeMilliseconds s.interval)
    (hunpolled : polls s.world.events = [] → s.interval = firstInterval options)
    (hlast : ∀ p ∈ (polls s.world.events).getLast?, s.interval = p.interval ∧ s.world.now = p.finish)
    (hrests : Rests s.world w false)
    (hnow : w.now = s.world.now + timerDelay (cap s.interval (left deadline s.world.now))) :
    Resumes options deadline { s with world := w } where
  respects := hrests.respects hclear hrespects
  clear := hrests.clear hclear
  least := hleast
  whole := hwhole
  unpolled hnone := hunpolled (hrests.polls ▸ hnone)
  waited p hp := by
    obtain ⟨hinterval, hfinish⟩ := hlast p (hrests.polls ▸ hp)
    refine ⟨hinterval, ?_⟩
    show w.now - p.finish = _
    rw [hnow, hfinish, hinterval]
    ring

/-- The flow before the loop, or at its head with the law kept. -/
def Sound (options : Options) (around : Surroundings T) : At T → Prop
  | .start => True
  | .head s => Resumes options (deadline options around) s

theorem firstInterval_least (options : Options) : 1 ≤ firstInterval options := le_max_left _ _

/-- The set-up of a flow. -/
theorem start_sound (b : Binding) (options : Options) (around : Surroundings T) :
    (∀ a, turn b options around .start = .inl a → ∃ s, a = .head s ∧ Sound options around a) ∧
      ∀ ended, turn b options around .start = .inr ended → EndsSoundly options around ended := by
  have hnil : Respects options (deadline options around) ([] : List (Event T)) := Respects.nil options _
  have hclear : Clear ([] : List (Event T)) := by simp [Clear]
  have hwhole : WholeMilliseconds (firstInterval options) := wholeMilliseconds_max _
  rw [turn, initialInterval_eq]
  constructor
  · intro a h
    split at h
    · obtain ⟨w, rfl, hrests, hnow⟩ := waitAndGoOn_inl h
      refine ⟨_, rfl, ?_⟩
      exact resumes_of_rests hnil hclear (firstInterval_least options) hwhole (fun _ => rfl) (by simp [polls])
        hrests hnow
    · obtain rfl := Sum.inl.inj h
      exact ⟨_, rfl, hnil, hclear, firstInterval_least options, hwhole, fun _ => rfl, by simp [polls]⟩
  · intro ended h
    split at h
    · obtain ⟨hcancelled, hrests⟩ := waitAndGoOn_inr h
      exact ⟨hrests.respects hclear hnil, fun _ => hrests.getLast_aborted, fun _ => hcancelled⟩
    · cases h

theorem beforeDeadline_iff (deadline : Option ℚ) (now : ℚ) :
    beforeDeadline deadline now = true ↔ ∀ d ∈ deadline, now < d := by
  cases deadline <;> simp [beforeDeadline]

/-- One pass of the loop: it ends soundly, or comes to its head again, a millisecond later at least. -/
theorem head_sound (b : Binding) (options : Options) (around : Surroundings T)
    (h : Resumes options (deadline options around) s) :
    (∀ a, turn b options around (.head s) = .inl a → ∃ s', a = .head s' ∧ Resumes options (deadline options around) s' ∧
      (∀ d ∈ deadline options around, s.world.now < d) ∧ s.world.now + 1 / 1000 ≤ s'.world.now) ∧
      ∀ ended, turn b options around (.head s) = .inr ended → EndsSoundly options around ended := by
  have htimed : EndsSoundly options around (timedOut s) := by
    refine ⟨h.respects, fun hcancelled => by simp [timedOut, Cancelled] at hcancelled, fun hlast => ?_⟩
    exact absurd hlast (getLast_ne_of_clear h.clear)
  rw [turn]
  by_cases hbefore : beforeDeadline (deadline options around) s.world.now = true
  · rw [if_pos hbefore]
    have htime := (beforeDeadline_iff _ _).mp hbefore
    cases hlook : checkSignal options.signal s.world with
    | mk w seen =>
      obtain ⟨hrests, hnow⟩ := checkSignal_spec hlook
      cases seen with
      | true =>
        refine ⟨by simp, fun ended hended => ?_⟩
        obtain rfl := Sum.inr.inj hended
        exact ⟨hrests.respects h.clear h.respects, fun _ => hrests.getLast_aborted, fun _ => rfl⟩
      | false =>
        have hdue : ∀ d ∈ deadline options around, w.now < d := hnow ▸ htime
        have hlaw := h.respects_record hrests hnow hdue (around.attempts w.attempts)
        have hclear : Clear (w.record (pollOf s (around.attempts w.attempts) w)).events := by
          intro hmem
          exact hrests.clear h.clear (by simpa [World.record] using hmem)
        have hlastPoll : (polls (w.record (pollOf s (around.attempts w.attempts) w)).events).getLast? =
            some (pollOf s (around.attempts w.attempts) w) := by
          rw [World.record, polls_append]
          simp [polls]
        rcases afterPoll_cases b options (deadline options around) (around.attempts w.attempts) w h.least with
          ⟨outcome, hafter, hnot⟩ | ⟨slowDowns, -, hafter⟩
        · refine ⟨fun a ha => by simp [hafter] at ha, fun ended hended => ?_⟩
          obtain rfl : (outcome, w.record (pollOf s (around.attempts w.attempts) w)) = ended := by
            simpa [hafter] using hended
          exact ⟨hlaw, fun hcancelled => absurd hcancelled hnot,
            fun hlast => absurd hlast (getLast_ne_of_clear hclear)⟩
        · refine ⟨fun a ha => ?_, fun ended hended => ?_⟩
          · obtain ⟨w', rfl, hrests', hnow'⟩ := waitAndGoOn_inl (hafter.symm.trans ha)
            refine ⟨_, rfl, ?_, htime, ?_⟩
            · refine resumes_of_rests hlaw hclear (one_le_nextInterval h.least _)
                (wholeMilliseconds_nextInterval h.whole _) ?_ ?_ hrests' hnow'
              · intro hnone
                rw [hnone] at hlastPoll
                cases hlastPoll
              · intro p hp
                obtain rfl : pollOf s (around.attempts w.attempts) w = p := by simpa [hlastPoll] using hp
                exact ⟨rfl, rfl⟩
            · have hdelay := timerDelay_pos (cap (pollOf s (around.attempts w.attempts) w).interval
                (left (deadline options around) (pollOf s (around.attempts w.attempts) w).finish))
              have htook := (around.attempts w.attempts).took_nonneg
              have hfinish : (w.record (pollOf s (around.attempts w.attempts) w)).now =
                  s.world.now + (around.attempts w.attempts).took := by
                rw [← hnow]
                rfl
              show s.world.now + 1 / 1000 ≤ w'.now
              rw [hnow', hfinish]
              have hcap : (pollOf s (around.attempts w.attempts) w).finish =
                  s.world.now + (around.attempts w.attempts).took := by
                rw [← hnow]
                rfl
              rw [hcap] at hdelay
              linarith
          · obtain ⟨hcancelled, hrests'⟩ := waitAndGoOn_inr (hafter.symm.trans hended)
            exact ⟨hrests'.respects hclear hlaw, fun _ => hrests'.getLast_aborted, fun _ => hcancelled⟩
  · rw [if_neg hbefore]
    refine ⟨by simp, fun ended hended => ?_⟩
    obtain rfl := Sum.inr.inj hended
    exact htimed

/-! ## Every run -/

theorem reaches_sound (b : Binding) (options : Options) (around : Surroundings T) {a : At T}
    (h : Loop.Reaches (turn b options around) .start a) : Sound options around a := by
  induction h with
  | refl => trivial
  | tail _ hstep ih =>
    rename_i before after _
    cases before with
    | start =>
      obtain ⟨s, rfl, hs⟩ := (start_sound b options around).1 after hstep
      exact hs
    | head s =>
      obtain ⟨s', rfl, hs', -⟩ := (head_sound b options around ih).1 after hstep
      exact hs'

theorem returns_sound (b : Binding) (options : Options) (around : Surroundings T) {ended : Ended T}
    (h : Loop.Returns (turn b options around) .start ended) : EndsSoundly options around ended := by
  obtain ⟨fuel, hrun⟩ := h
  have hstep : ∀ a a', Sound options around a → turn b options around a = .inl a' → Sound options around a' := by
    intro a a' ha hturn
    cases a with
    | start =>
      obtain ⟨s, rfl, hs⟩ := (start_sound b options around).1 a' hturn
      exact hs
    | head s =>
      obtain ⟨s', rfl, hs', -⟩ := (head_sound b options around ha).1 a' hturn
      exact hs'
  obtain ⟨a, ha, hend⟩ := Loop.run_invariant hstep (show Sound options around .start from trivial) hrun
  cases a with
  | start => exact (start_sound b options around).2 ended hend
  | head s => exact (head_sound b options around ha).2 ended hend

/-- From the head of the loop the flow ends: each pass takes a millisecond of what is left. -/
theorem head_returns (b : Binding) (options : Options) (around : Surroundings T) {limit : ℚ}
    (hlimit : deadline options around = some limit) (hs : Resumes options (deadline options around) s) {n : ℕ}
    (hleft : (limit - s.world.now) * 1000 ≤ n) : ∃ ended, Loop.Returns (turn b options around) (.head s) ended := by
  induction n generalizing s with
  | zero =>
    have hlate : limit ≤ s.world.now := by
      have hzero : (limit - s.world.now) * 1000 ≤ 0 := by exact_mod_cast hleft
      linarith
    cases hturn : turn b options around (.head s) with
    | inl a =>
      obtain ⟨s', -, -, hbefore, -⟩ := (head_sound b options around hs).1 a hturn
      exact absurd (hbefore limit hlimit) (not_lt.mpr hlate)
    | inr ended => exact ⟨ended, Loop.Returns.of_inr hturn⟩
  | succ n ih =>
    cases hturn : turn b options around (.head s) with
    | inl a =>
      obtain ⟨s', rfl, hs', -, htime⟩ := (head_sound b options around hs).1 a hturn
      have hless : (limit - s'.world.now) * 1000 ≤ n := by
        push_cast at hleft
        linarith
      obtain ⟨ended, hended⟩ := ih hs' hless
      exact ⟨ended, (Loop.Reaches.single hturn).returns hended⟩
    | inr ended => exact ⟨ended, Loop.Returns.of_inr hturn⟩

theorem flow_returns (b : Binding) (options : Options) (around : Surroundings T) {limit : ℚ}
    (hlimit : deadline options around = some limit) :
    ∃ ended, Loop.Returns (turn b options around) .start ended := by
  cases hturn : turn b options around .start with
  | inl a =>
    obtain ⟨s, rfl, hs⟩ := (start_sound b options around).1 a hturn
    obtain ⟨ended, hended⟩ := head_returns b options around hlimit hs (Nat.le_ceil _)
    exact ⟨ended, (Loop.Reaches.single hturn).returns hended⟩
  | inr ended => exact ⟨ended, Loop.Returns.of_inr hturn⟩

/-- Polling keeps its law in both bindings: at every head of the loop, where no abort was seen yet, and
when the flow has ended, which it does when there is a deadline. -/
theorem device_polling (b : Binding) (options : Options) (around : Surroundings T) :
    (∀ s, Loop.Reaches (turn b options around) .start (.head s) →
      Respects options (deadline options around) s.world.events ∧ Clear s.world.events) ∧
    (∀ ended, Loop.Returns (turn b options around) .start ended → EndsSoundly options around ended) ∧
    (options.expiresInSeconds ≠ none → ∃ ended, Loop.Returns (turn b options around) .start ended) := by
  refine ⟨fun s hs => ?_, fun ended hended => returns_sound b options around hended, fun hexpires => ?_⟩
  · have hsound : Resumes options (deadline options around) s := reaches_sound b options around hs
    exact ⟨hsound.respects, hsound.clear⟩
  · obtain ⟨seconds, hseconds⟩ := Option.ne_none_iff_exists'.mp hexpires
    have hlimit : deadline options around = some (around.start + seconds) := by simp [deadline, hseconds]
    exact flow_returns b options around hlimit

/-- A flow with the usual interval that expires after a millisecond and a half. -/
def expiring : Options where
  intervalSeconds := some 5
  expiresInSeconds := some (3 / 2000)
  waitBeforeFirstPoll := false
  signal := none

/-- Polls that take no time and find nothing. -/
def unauthorized : Surroundings Unit where
  start := 0
  attempts _ := { took := 0, took_nonneg := le_refl 0, result := .pending }

/-- A run that polls at zero and one millisecond later, with an interval of five seconds in force. -/
def PollsEarly (b : Binding) : Prop :=
  ∃ ended, Loop.Returns (turn b expiring unauthorized) .start ended ∧
    (polls ended.2.events).map (fun p => (p.start, p.finish, p.interval)) = [(0, 0, 5), (1 / 1000, 1 / 1000, 5)]

/-- With less than the interval left, what is left is cut to whole milliseconds, so the flow comes
back before its deadline and polls again. -/
theorem polled_early : PollsEarly .python ∧ PollsEarly .rust := by
  have hearly : ∀ b, PollsEarly b := by
    intro b
    have hrun : (Loop.run (turn b expiring unauthorized) 4 .start).map
        (fun ended => (polls ended.2.events).map fun p => (p.start, p.finish, p.interval)) =
          some [(0, 0, 5), (1 / 1000, 1 / 1000, 5)] := by
      cases b <;> decide +kernel
    obtain ⟨ended, hended, hpolls⟩ := Option.map_eq_some_iff.mp hrun
    exact ⟨ended, ⟨4, hended⟩, hpolls⟩
  exact ⟨hearly .python, hearly .rust⟩

end MinionAgent.DeviceCode
