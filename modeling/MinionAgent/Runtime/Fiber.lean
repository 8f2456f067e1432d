import MinionAgent.Library.Transition
import MinionAgent.Runtime.Disposable

/-!
# MinionAgent.Runtime.Fiber

One plugin instance (`runtime/fiber.py`).  Its methods are coroutines: a call
of `load`, `unload` or `dispose` is suspended at the plugin body and at every
disposer, and everything else may happen in between.

* `FiberEvent`, `Fiber.step` — what one task does between two suspensions;
* `Fiber.Sound` — what every run keeps;
* `Fiber.Kept` — what the runs keep in which `effect` is not accepted while a
  call unwinds.
-/

namespace MinionAgent

/-- `FiberState`. -/
inductive FiberState
  | pending | loading | active | failed | unloading | disposed
deriving DecidableEq

/-- `_LIVE_STATES`. -/
def FiberState.isLive : FiberState → Bool
  | .loading | .active => true
  | _ => false

/-- A call of `load`, `unload` or `dispose`: awaiting the plugin body, inside
`_unwind` of a list with the state to settle in, or returned. -/
inductive Call
  | body
  | unwinding (list : Nat) (target : FiberState)
  | returned (raised : Bool)
deriving DecidableEq

/-- `Fiber`: `current` is the list in `_disposables`. -/
structure Fiber where
  state : FiberState := .pending
  disposables : Disposables := {}
  current : Nat := 0
  calls : List Call := []

/-- What one task does between two suspensions: it makes a call, creates an
effect, uses a handle, or a call goes on after the body or a disposer. -/
inductive FiberEvent
  | load
  | bodyReturned (call : Nat) (valid : Bool)
  | bodyRaised (call : Nat)
  | unload
  | dispose
  | effect
  | handle (effect : Nat)
  | disposerEnded (call : Nat) (raised : Bool)
deriving DecidableEq

namespace Fiber

/-- What follows `dispose_all` in `_unwind` and its caller, when that list is
done: a new list, the new state, and the end of the call. -/
def settle (f : Fiber) (call : Nat) (target : FiberState) (raised : Bool) : Fiber where
  state := target
  disposables := f.disposables.fresh
  current := f.disposables.count
  calls := f.calls.set call (.returned raised)

/-- A call inside `dispose_all` of a list: it is suspended while that runs. -/
def awaitList (f : Fiber) (call list : Nat) (target : FiberState) : Fiber :=
  match (f.disposables.lists list).progress with
  | .done raised => f.settle call target raised
  | _ => { f with calls := f.calls.set call (.unwinding list target) }

/-- `_unwind`, up to the first disposer it awaits.  A list that was disposed
before is left to the call that does it. -/
def unwind (f : Fiber) (call : Nat) (target : FiberState) : Fiber :=
  if (f.disposables.lists f.current).disposed then
    f.settle call target false
  else
    { f with disposables := f.disposables.beginDispose f.current }.awaitList call f.current target

/-- A new call. -/
def called (f : Fiber) (call : Call) : Fiber := { f with calls := f.calls ++ [call] }

/-- One step of one task; `none` where the event cannot happen. -/
def step (f : Fiber) : FiberEvent → Option Fiber
  | .load =>
    if f.state = .pending then
      some ({ f with state := .loading }.called .body)
    else
      some (f.called (.returned false))
  | .bodyReturned call valid =>
    if f.calls[call]? = some .body then
      if valid then
        some { f with state := .active, calls := f.calls.set call (.returned false) }
      else
        some (f.unwind call .pending)
    else
      none
  | .bodyRaised call => if f.calls[call]? = some .body then some (f.unwind call .failed) else none
  | .unload =>
    if f.state.isLive then
      some (({ f with state := .unloading }.called (.returned false)).unwind f.calls.length .pending)
    else
      some (f.called (.returned false))
  | .dispose =>
    if f.state = .disposed then
      some (f.called (.returned false))
    else if f.state.isLive then
      some (({ f with state := if f.state = FiberState.active then FiberState.unloading else f.state }.called
        (.returned false)).unwind
        f.calls.length .disposed)
    else
      some ({ f with state := .disposed }.called (.returned false))
  | .effect => some (if f.state.isLive then { f with disposables := f.disposables.push f.current } else f)
  | .handle e =>
    if e < f.disposables.effects.length then
      some { f with disposables := (f.disposables.handle? e).getD f.disposables }
    else
      none
  | .disposerEnded call raised =>
    match f.calls[call]? with
    | some (.unwinding list target) =>
      some ({ f with disposables := f.disposables.resume list raised }.awaitList call list target)
    | _ => none

/-! ## What every run keeps -/

/-- The calls inside `_unwind`, and the lists that are being unwound: each by
one call. -/
structure Waiting (d : Disposables) (calls : List Call) : Prop where
  awaits : ∀ (c list : Nat) (target : FiberState), calls[c]? = some (.unwinding list target) →
    list < d.count ∧ ∃ below failed, (d.lists list).progress = .running below failed
  driven : ∀ (list below : Nat) (failed : Bool), list < d.count → (d.lists list).progress = .running below failed →
    ∃ (c : Nat) (target : FiberState), calls[c]? = some (.unwinding list target)
  lone : ∀ (c c' list : Nat) (target target' : FiberState), calls[c]? = some (.unwinding list target) →
    calls[c']? = some (.unwinding list target') → c = c'

/-- What every run keeps. -/
structure Sound (f : Fiber) : Prop where
  disposables : f.disposables.Sound
  current_lt : f.current < f.disposables.count
  waiting : Waiting f.disposables f.calls
  unspent : ¬ f.disposables.isDone f.current

theorem sound_initial : Sound {} where
  disposables := Disposables.Sound.initial
  current_lt := Nat.zero_lt_one
  waiting := by constructor <;> simp
  unspent := by simp [Disposables.isDone]

/-- Calls of which the same ones are inside `_unwind`. -/
theorem Waiting.congr {d : Disposables} {calls calls' : List Call} (h : Waiting d calls)
    (hiff : ∀ (c list : Nat) (target : FiberState),
      calls'[c]? = some (.unwinding list target) ↔ calls[c]? = some (.unwinding list target)) : Waiting d calls' := by
  constructor
  · intro c list target hc
    exact h.awaits c list target ((hiff c list target).mp hc)
  · intro list below failed hlt hrunning
    obtain ⟨c, target, hc⟩ := h.driven list below failed hlt hrunning
    exact ⟨c, target, (hiff c list target).mpr hc⟩
  · intro c c' list target target' hc hc'
    exact h.lone c c' list target target' ((hiff c list target).mp hc) ((hiff c' list target').mp hc')

/-- Lists whose progress is the same. -/
theorem Waiting.of_progress {d d' : Disposables} {calls : List Call} (h : Waiting d calls)
    (hcount : d'.count = d.count) (hsame : ∀ list, (d'.lists list).progress = (d.lists list).progress) :
    Waiting d' calls := by
  constructor
  · intro c list target hc
    rw [hcount, hsame]
    exact h.awaits c list target hc
  · intro list below failed hlt hrunning
    rw [hsame] at hrunning
    exact h.driven list below failed (hcount ▸ hlt) hrunning
  · exact h.lone

/-- A new call, which is not inside `_unwind` yet. -/
theorem unwinding_called {calls : List Call} {call : Call} (hcall : ∀ list target, call ≠ .unwinding list target)
    (c list : Nat) (target : FiberState) :
    (calls ++ [call])[c]? = some (.unwinding list target) ↔ calls[c]? = some (.unwinding list target) := by
  rw [List.getElem?_append]
  split
  · rfl
  · next hge =>
    rw [List.getElem?_eq_none (Nat.le_of_not_lt hge), List.getElem?_singleton]
    have hne := hcall list target
    split <;> simp [hne]

/-- A call that is not inside `_unwind`, neither before nor after. -/
theorem unwinding_set {calls : List Call} {call : Nat} {next : Call}
    (hbefore : ∀ list target, calls[call]? ≠ some (.unwinding list target))
    (hafter : ∀ list target, next ≠ .unwinding list target) (c list : Nat) (target : FiberState) :
    (calls.set call next)[c]? = some (.unwinding list target) ↔ calls[c]? = some (.unwinding list target) := by
  rw [List.getElem?_set]
  split
  · next heq =>
    subst heq
    have hne := hafter list target
    have hne' := hbefore list target
    split <;> simp [hne, hne']
  · rfl

/-- One list goes on with its call. -/
theorem Waiting.advance {d d' : Disposables} {calls : List Call} (h : Waiting d calls) {call list : Nat}
    (next : Call) (hcount : d'.count = d.count) (hother : ∀ l, l ≠ list → d'.lists l = d.lists l)
    (hlist : list < d.count) (hcall : ∀ l target, calls[call]? = some (.unwinding l target) → l = list)
    (honly : ∀ (c : Nat) (target : FiberState), calls[c]? = some (.unwinding list target) → c = call)
    (hrunning : ∀ below failed, (d'.lists list).progress = .running below failed →
      call < calls.length ∧ ∃ target, next = .unwinding list target)
    (hnext : ∀ l target, next = .unwinding l target →
      l = list ∧ ∃ below failed, (d'.lists list).progress = .running below failed) :
    Waiting d' (calls.set call next) := by
  have hset {c l : Nat} {target : FiberState} (hc : (calls.set call next)[c]? = some (.unwinding l target)) :
      c = call ∧ next = .unwinding l target ∨ c ≠ call ∧ l ≠ list ∧ calls[c]? = some (.unwinding l target) := by
    rw [List.getElem?_set] at hc
    split at hc
    · next heq =>
      subst heq
      split at hc
      · exact .inl ⟨rfl, Option.some.inj hc⟩
      · cases hc
    · next hne =>
      refine .inr ⟨Ne.symm hne, ?_, hc⟩
      rintro rfl
      exact hne (honly c target hc).symm
  constructor
  · intro c l target hc
    rcases hset hc with ⟨-, hn⟩ | ⟨-, hne, hc⟩
    · obtain ⟨rfl, hprogress⟩ := hnext l target hn
      exact ⟨hcount ▸ hlist, hprogress⟩
    · rw [hcount, hother l hne]
      exact h.awaits c l target hc
  · intro l below failed hl hprogress
    by_cases heq : l = list
    · subst heq
      obtain ⟨hlt, target, rfl⟩ := hrunning below failed hprogress
      exact ⟨call, target, by rw [List.getElem?_set_self hlt]⟩
    · rw [hother l heq] at hprogress
      obtain ⟨c, target, hc⟩ := h.driven l below failed (hcount ▸ hl) hprogress
      have hne : call ≠ c := by
        rintro rfl
        exact heq (hcall l target hc)
      exact ⟨c, target, by rw [List.getElem?_set_ne hne]; exact hc⟩
  · intro c c' l target target' hc hc'
    rcases hset hc with ⟨rfl, hn⟩ | ⟨hne, hl, hc⟩
    · rcases hset hc' with ⟨rfl, -⟩ | ⟨-, hl', -⟩
      · rfl
      · exact absurd (hnext l target hn).1 hl'
    · rcases hset hc' with ⟨rfl, hn⟩ | ⟨-, -, hc'⟩
      · exact absurd (hnext l target' hn).1 hl
      · exact h.lone c c' l target target' hc hc'

theorem sound_settle {f : Fiber} {call : Nat} {target : FiberState} {raised : Bool}
    (hdisposables : f.disposables.Sound) (hwaiting : Waiting f.disposables (f.calls.set call (.returned raised))) :
    Sound (f.settle call target raised) where
  disposables := hdisposables.fresh
  current_lt := Nat.lt_succ_self _
  waiting := by
    constructor
    · intro c list target hc
      obtain ⟨hlt, hrunning⟩ := hwaiting.awaits c list target hc
      refine ⟨Nat.lt_succ_of_lt hlt, ?_⟩
      rw [settle, Disposables.lists_fresh_of_lt hlt]
      exact hrunning
    · intro list below failed hlt hrunning
      rcases Nat.lt_succ_iff_lt_or_eq.mp hlt with hlt | rfl
      · rw [settle, Disposables.lists_fresh_of_lt hlt] at hrunning
        exact hwaiting.driven list below failed hlt hrunning
      · rw [settle, Disposables.lists_fresh_count] at hrunning
        cases hrunning
    · exact hwaiting.lone
  unspent := by
    rintro ⟨raised, hraised⟩
    rw [settle, Disposables.lists_fresh_count] at hraised
    cases hraised

/-- A call goes on after its list has. -/
theorem Sound.awaitList {f : Fiber} (h : Sound f) {d' : Disposables} {call list : Nat} {target : FiberState}
    (hsound : d'.Sound) (hcount : d'.count = f.disposables.count)
    (hother : ∀ l, l ≠ list → d'.lists l = f.disposables.lists l) (hbegun : (d'.lists list).progress ≠ .idle)
    (hlist : list < f.disposables.count) (hlt : call < f.calls.length)
    (hcall : ∀ l target, f.calls[call]? = some (.unwinding l target) → l = list)
    (honly : ∀ (c : Nat) (target : FiberState), f.calls[c]? = some (.unwinding list target) → c = call) :
    Sound ({ f with disposables := d' }.awaitList call list target) := by
  have hadvance (next : Call) := h.waiting.advance next hcount hother hlist hcall honly
  rw [Fiber.awaitList]
  cases hprogress : (d'.lists list).progress with
  | idle => exact absurd hprogress hbegun
  | done raised =>
    refine sound_settle hsound (hadvance (.returned raised) ?_ ?_)
    · intro below failed hrunning
      rw [hprogress] at hrunning
      cases hrunning
    · intro l target hnext
      cases hnext
  | running below failed =>
    refine ⟨hsound, hcount ▸ h.current_lt, hadvance (.unwinding list target) ?_ ?_, ?_⟩
    · exact fun _ _ _ => ⟨hlt, target, rfl⟩
    · intro l target' hnext
      cases hnext
      exact ⟨rfl, below, failed, hprogress⟩
    · rintro ⟨raised, hraised⟩
      by_cases heq : f.current = list
      · rw [heq, hprogress] at hraised
        cases hraised
      · refine h.unspent ⟨raised, ?_⟩
        rw [hother f.current heq] at hraised
        exact hraised

theorem Sound.unwind {f : Fiber} (h : Sound f) {call : Nat} (target : FiberState) (hlt : call < f.calls.length)
    (hcall : ∀ list target, f.calls[call]? ≠ some (.unwinding list target)) : Sound (f.unwind call target) := by
  rw [Fiber.unwind]
  split
  · exact sound_settle h.disposables (h.waiting.congr (unwinding_set hcall fun _ _ => Call.noConfusion))
  · next hidle =>
    have hidle : (f.disposables.lists f.current).progress = .idle := by
      simpa [DisposableList.disposed] using hidle
    refine h.awaitList (h.disposables.beginDispose _) (Disposables.count_beginDispose _)
      (fun l hl => Disposables.lists_beginDispose_of_ne hl) (Disposables.progress_beginDispose _) h.current_lt hlt ?_ ?_
    · intro l target hunwinding
      exact absurd hunwinding (hcall l target)
    · intro c target hunwinding
      obtain ⟨-, below, failed, hrunning⟩ := h.waiting.awaits c f.current target hunwinding
      rw [hidle] at hrunning
      cases hrunning

theorem Sound.called {f : Fiber} (h : Sound f) (state : FiberState) {call : Call}
    (hcall : ∀ list target, call ≠ .unwinding list target) : Sound ({ f with state := state }.called call) where
  disposables := h.disposables
  current_lt := h.current_lt
  waiting := h.waiting.congr (unwinding_called hcall)
  unspent := h.unspent

/-- A new call goes into `_unwind`. -/
theorem Sound.called_unwind {f : Fiber} (h : Sound f) (state target : FiberState) :
    Sound (({ f with state := state }.called (.returned false)).unwind f.calls.length target) := by
  refine (h.called state fun _ _ => Call.noConfusion).unwind target (by simp [Fiber.called]) fun l t => ?_
  simp [Fiber.called]

theorem Sound.push {f : Fiber} (h : Sound f) : Sound { f with disposables := f.disposables.push f.current } where
  disposables := h.disposables.push h.current_lt h.unspent
  current_lt := h.current_lt
  waiting := h.waiting.of_progress rfl (Disposables.progress_push _)
  unspent := by
    rintro ⟨raised, hraised⟩
    rw [Disposables.progress_push] at hraised
    exact h.unspent ⟨raised, hraised⟩

theorem Sound.handle {f : Fiber} (h : Sound f) (e : Nat) :
    Sound { f with disposables := (f.disposables.handle? e).getD f.disposables } := by
  cases hhandle : f.disposables.handle? e with
  | none => exact h
  | some d' =>
    obtain ⟨-, hcount, hprogress, -⟩ := Disposables.handle?_frame hhandle
    refine ⟨h.disposables.handle hhandle, hcount ▸ h.current_lt, h.waiting.of_progress hcount hprogress, ?_⟩
    rintro ⟨raised, hraised⟩
    rw [Option.getD_some, hprogress] at hraised
    exact h.unspent ⟨raised, hraised⟩

theorem Sound.disposerEnded {f : Fiber} (h : Sound f) {call list : Nat} {target : FiberState} (raised : Bool)
    (hcall : f.calls[call]? = some (.unwinding list target)) :
    Sound ({ f with disposables := f.disposables.resume list raised }.awaitList call list target) := by
  obtain ⟨hlist, below, failed, hrunning⟩ := h.waiting.awaits call list target hcall
  refine h.awaitList (h.disposables.resume list raised) (Disposables.count_resume _ _)
    (fun l hl => Disposables.lists_resume_of_ne hl raised)
    (Disposables.progress_resume list raised (by rw [hrunning]; exact Progress.noConfusion)) hlist
    (List.getElem?_eq_some_iff.mp hcall).1 ?_ ?_
  · intro l target' hunwinding
    rw [hcall] at hunwinding
    cases hunwinding
    rfl
  · intro c target' hunwinding
    exact h.waiting.lone c call list target' target hunwinding hcall

theorem sound_step {f f' : Fiber} {event : FiberEvent} (h : Sound f) (hstep : step f event = some f') : Sound f' := by
  cases event with
  | load =>
    rw [step] at hstep
    split at hstep
    · cases hstep
      exact h.called .loading fun _ _ => Call.noConfusion
    · cases hstep
      exact h.called f.state fun _ _ => Call.noConfusion
  | bodyReturned call valid =>
    rw [step] at hstep
    split at hstep
    · next hbody =>
      have hcall (list : Nat) (target : FiberState) : f.calls[call]? ≠ some (.unwinding list target) := by
        rw [hbody]
        exact fun heq => Call.noConfusion (Option.some.inj heq)
      split at hstep
      · cases hstep
        exact ⟨h.disposables, h.current_lt, h.waiting.congr (unwinding_set hcall fun _ _ => Call.noConfusion),
          h.unspent⟩
      · cases hstep
        exact h.unwind .pending (List.getElem?_eq_some_iff.mp hbody).1 hcall
    · cases hstep
  | bodyRaised call =>
    rw [step] at hstep
    split at hstep
    · next hbody =>
      cases hstep
      refine h.unwind .failed (List.getElem?_eq_some_iff.mp hbody).1 fun list target => ?_
      rw [hbody]
      exact fun heq => Call.noConfusion (Option.some.inj heq)
    · cases hstep
  | unload =>
    rw [step] at hstep
    split at hstep
    · cases hstep
      exact h.called_unwind .unloading .pending
    · cases hstep
      exact h.called f.state fun _ _ => Call.noConfusion
  | dispose =>
    rw [step] at hstep
    split at hstep
    · cases hstep
      exact h.called f.state fun _ _ => Call.noConfusion
    · split at hstep
      · cases hstep
        exact h.called_unwind _ .disposed
      · cases hstep
        exact h.called .disposed fun _ _ => Call.noConfusion
  | effect =>
    rw [step] at hstep
    cases hstep
    split
    · exact h.push
    · exact h
  | handle e =>
    rw [step] at hstep
    split at hstep
    · cases hstep
      exact h.handle e
    · cases hstep
  | disposerEnded call raised =>
    rw [step] at hstep
    split at hstep
    · next list target hcall =>
      cases hstep
      exact h.disposerEnded raised hcall
    · cases hstep

theorem sound_run {f : Fiber} {events : List FiberEvent} (hrun : Transition.run step {} events = some f) : Sound f :=
  Transition.run_preserves (fun _ _ _ h => sound_step h) hrun sound_initial

/-! ## What the quiet runs keep -/

/-- Whether a call is inside `_unwind`. -/
def Unwinds (f : Fiber) : Prop := ∃ (c list : Nat) (target : FiberState), f.calls[c]? = some (.unwinding list target)

/-- `effect` is not accepted while a call unwinds. -/
def Quiet (f : Fiber) (event : FiberEvent) : Prop := event = .effect → f.state.isLive = true → ¬ f.Unwinds

/-- Every live effect is on its way to be disposed or in a list that can still
be; in such a list there are live effects only while the fiber is live and no
call unwinds. -/
structure Kept (f : Fiber) : Prop where
  owned : ∀ e, f.disposables.isLive e = true → f.disposables.Awaited e ∨ f.disposables.Waits f.current e
  apart : ∀ e, f.disposables.isLive e = true → f.disposables.Waits f.current e →
    f.state.isLive = true ∧ ¬ f.Unwinds

theorem kept_initial : Kept {} := by constructor <;> simp [Disposables.isLive]

/-- An effect that is awaited is in a list that is being disposed. -/
theorem not_waits_of_awaited {d : Disposables} {e list : Nat} (h : d.Awaited e) : ¬ d.Waits list e := by
  rintro ⟨slot, he, hidle⟩
  obtain ⟨list', slot', below, failed, he', hrunning, -⟩ := h
  rw [he] at he'
  cases he'
  rw [hidle] at hrunning
  cases hrunning

theorem kept_settle {f : Fiber} (h : f.disposables.Sound)
    (hall : ∀ e, f.disposables.isLive e = true → f.disposables.Awaited e) (call : Nat) (target : FiberState)
    (raised : Bool) : Kept (f.settle call target raised) where
  owned := by
    intro e hlive
    obtain ⟨list, slot, below, failed, he, hrunning, hlt⟩ := hall e hlive
    refine .inl ⟨list, slot, below, failed, he, ?_, hlt⟩
    rw [settle, Disposables.lists_fresh_of_lt (h.counted e list slot he)]
    exact hrunning
  apart := by
    rintro e - ⟨slot, he, -⟩
    exact absurd (h.counted e f.disposables.count slot he) (Nat.lt_irrefl _)

theorem kept_awaitList {f : Fiber} (h : f.disposables.Sound)
    (hall : ∀ e, f.disposables.isLive e = true → f.disposables.Awaited e) (call list : Nat) (target : FiberState) :
    Kept (f.awaitList call list target) := by
  rw [Fiber.awaitList]
  split
  · exact kept_settle h hall call target _
  · refine ⟨fun e hlive => .inl (hall e hlive), fun e hlive hwaits => ?_⟩
    exact absurd hwaits (not_waits_of_awaited (hall e hlive))

theorem Sound.kept_unwind {f : Fiber} (h : Sound f)
    (howned : ∀ e, f.disposables.isLive e = true → f.disposables.Awaited e ∨ f.disposables.Waits f.current e)
    (call : Nat) (target : FiberState) : Kept (f.unwind call target) := by
  rw [Fiber.unwind]
  split
  · next hdisposed =>
    refine kept_settle h.disposables (fun e hlive => ?_) call target false
    rcases howned e hlive with hawaited | ⟨slot, he, hidle⟩
    · exact hawaited
    · rw [DisposableList.disposed, hidle] at hdisposed
      cases hdisposed
  · next hidle =>
    have hidle : (f.disposables.lists f.current).progress = .idle := by
      simpa [DisposableList.disposed] using hidle
    exact kept_awaitList (h.disposables.beginDispose _)
      (fun e hlive => h.disposables.awaited_beginDispose hidle howned hlive) call f.current target

theorem unwinds_called {f : Fiber} {state : FiberState} {call : Call}
    (hcall : ∀ list target, call ≠ .unwinding list target) :
    ({ f with state := state }.called call).Unwinds ↔ f.Unwinds := by
  simp only [Unwinds, Fiber.called, unwinding_called hcall]

/-- A new call that suspends at the plugin body at most. -/
theorem Kept.called {f : Fiber} (h : Kept f) {state : FiberState} {call : Call}
    (hcall : ∀ list target, call ≠ .unwinding list target) (hstate : f.state.isLive = true → state.isLive = true) :
    Kept ({ f with state := state }.called call) where
  owned := h.owned
  apart := by
    intro e hlive hwaits
    obtain ⟨hlive, hunwinds⟩ := h.apart e hlive hwaits
    exact ⟨hstate hlive, fun hnew => hunwinds ((unwinds_called hcall).mp hnew)⟩

theorem kept_step {f f' : Fiber} {event : FiberEvent} (hsound : Sound f) (h : Kept f) (hquiet : Quiet f event)
    (hstep : step f event = some f') : Kept f' := by
  cases event with
  | load =>
    rw [step] at hstep
    split at hstep
    · cases hstep
      exact h.called (fun _ _ => Call.noConfusion) fun _ => rfl
    · cases hstep
      exact h.called (fun _ _ => Call.noConfusion) id
  | bodyReturned call valid =>
    rw [step] at hstep
    split at hstep
    · next hbody =>
      split at hstep
      · cases hstep
        refine ⟨h.owned, fun e hlive hwaits => ⟨rfl, ?_⟩⟩
        rintro ⟨c, list, target, hc⟩
        refine (h.apart e hlive hwaits).2 ⟨c, list, target, ?_⟩
        refine (unwinding_set (fun l t => ?_) (fun _ _ => Call.noConfusion) c list target).mp hc
        rw [hbody]
        exact fun heq => Call.noConfusion (Option.some.inj heq)
      · cases hstep
        exact hsound.kept_unwind h.owned call .pending
    · cases hstep
  | bodyRaised call =>
    rw [step] at hstep
    split at hstep
    · cases hstep
      exact hsound.kept_unwind h.owned call .failed
    · cases hstep
  | unload =>
    rw [step] at hstep
    split at hstep
    · cases hstep
      exact (hsound.called .unloading fun _ _ => Call.noConfusion).kept_unwind h.owned f.calls.length .pending
    · cases hstep
      exact h.called (fun _ _ => Call.noConfusion) id
  | dispose =>
    rw [step] at hstep
    split at hstep
    · cases hstep
      exact h.called (fun _ _ => Call.noConfusion) id
    · split at hstep
      · cases hstep
        exact (hsound.called _ fun _ _ => Call.noConfusion).kept_unwind h.owned f.calls.length .disposed
      · next hlive =>
        cases hstep
        exact h.called (fun _ _ => Call.noConfusion) fun hlive' => absurd hlive' hlive
  | effect =>
    rw [step] at hstep
    cases hstep
    split
    · next hlive =>
      have hunwinds := hquiet rfl hlive
      have hidle : (f.disposables.lists f.current).progress = .idle := by
        cases hprogress : (f.disposables.lists f.current).progress with
        | idle => rfl
        | running below failed =>
          obtain ⟨c, target, hc⟩ := hsound.waiting.driven f.current below failed hsound.current_lt hprogress
          exact absurd ⟨c, f.current, target, hc⟩ hunwinds
        | done raised => exact absurd ⟨raised, hprogress⟩ hsound.unspent
      refine ⟨fun e he => ?_, fun _ _ _ => ⟨hlive, hunwinds⟩⟩
      rcases Disposables.isLive_push he with hwas | rfl
      · exact (h.owned e hwas).imp
          (·.of_frame (fun _ => Disposables.effects_push) (Disposables.progress_push _))
          (·.of_frame (fun _ => Disposables.effects_push) (Disposables.progress_push _))
      · exact .inr ⟨_, Disposables.effects_push_new _, by rw [Disposables.progress_push]; exact hidle⟩
    · exact h
  | handle e =>
    rw [step] at hstep
    split at hstep
    · cases hstep
      cases hhandle : f.disposables.handle? e with
      | none => exact h
      | some d' =>
        obtain ⟨heffects, -, hprogress, hlive⟩ := Disposables.handle?_frame hhandle
        have hwas {x : Nat} (hx : d'.isLive x = true) : f.disposables.isLive x = true := by
          rw [hlive, Bool.and_eq_true] at hx
          exact hx.1
        refine ⟨fun x hx => ?_, fun x hx hwaits => ?_⟩
        · exact (h.owned x (hwas hx)).imp (·.of_frame (by simp [heffects]) hprogress)
            (·.of_frame (by simp [heffects]) hprogress)
        · exact h.apart x (hwas hx) (hwaits.of_frame (by simp [heffects]) fun list => (hprogress list).symm)
    · cases hstep
  | disposerEnded call raised =>
    rw [step] at hstep
    split at hstep
    · next list target hcall =>
      cases hstep
      refine kept_awaitList (hsound.disposables.resume list raised) (fun e hlive => ?_) call list target
      refine hsound.disposables.awaited_resume (fun x hx => ?_) list raised hlive
      rcases h.owned x hx with hawaited | hwaits
      · exact hawaited
      · exact absurd ⟨call, list, target, hcall⟩ (h.apart x hx hwaits).2
    · cases hstep

theorem kept_run {f : Fiber} {events : List FiberEvent} (hrun : Transition.run step {} events = some f)
    (hquiet : Transition.Along step Quiet {} events) : Kept f := by
  have hboth : ∀ (s : Fiber) (event : FiberEvent) (s' : Fiber), Sound s ∧ Kept s → Quiet s event →
      step s event = some s' → Sound s' ∧ Kept s' :=
    fun s event s' h hq hstep => ⟨sound_step h.1 hstep, kept_step h.1 h.2 hq hstep⟩
  exact (Transition.run_preserves_along hboth hrun hquiet ⟨sound_initial, kept_initial⟩).2

end Fiber

end MinionAgent
