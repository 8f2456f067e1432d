import MinionAgent.Runtime.EventBus

/-!
# MinionAgent.AgentLoop.Decisions

What the listeners of a step decide: `_pre_step` and `_should_stop` of
`agent_loop/driver.py` over `agent/decisions.py`, and `pre_step` and
`should_stop_after_turn` of `agent_loop/decisions.rs`.

* `decideStep` — who decides a chain of pre-step listeners, or what it hands on;
* `preStep_eq`, `Rust.preStep_eq` — the two bindings by it;
* `resolveStopping` — the opinions of turn-stopping listeners, folded;
* `decisions_agree_iff` — where the bindings agree, and where they stop.
-/

namespace MinionAgent

/-! ## Pre-step -/

/-- `Reject` or `Enter`.  The window may be any integer (in Rust a `usize`). -/
inductive PreStepDecision (M : Type)
  | reject (reason : String)
  | enter (messages : List M) (systemOverride : Option String := none) (historyWindow : Option Int := none)

/-- `PreStepReason`. -/
inductive PreStepReason
  | initial
  | toolResults
  | steering
  | nextTurn
  | continuation
deriving DecidableEq

/-- What a listener does: it decides, or delegates, with other messages if it
gives some. -/
inductive PreStepAction (M : Type)
  | decide (decision : PreStepDecision M)
  | delegate (replacement : Option (List M))

/-- A listener, by what it does with the messages it sees. -/
abbrev PreStepListener (M : Type) := PreStepReason → List M → PreStepAction M

section

variable {M A S ε : Type}

/-- The arguments of a pre-step listener.  A delegation may leave out the
instance. -/
inductive PreStepArguments (M A : Type)
  | full (instance' : A) (reason : PreStepReason) (messages : List M)
  | short (reason : PreStepReason) (messages : List M)

/-- `_restore_instance`. -/
def restoreInstance (original : A) : PreStepArguments M A → PreStepArguments M A
  | .full _ reason messages => .full original reason messages
  | .short reason messages => .full original reason messages

/-- How a listener of Python delegates with messages: with an instance of its
own, or without any. -/
def replacementArguments (given : Option A) (reason : PreStepReason) (messages : List M) : PreStepArguments M A :=
  match given with
  | some instance' => .full instance' reason messages
  | none => .short reason messages

/-- A listener as a callback: one that gets too few arguments raises. -/
def preStepCallback (tooFewArguments : ε) (listener : PreStepListener M × Option A) :
    PreStepArguments M A → Middleware (PreStepArguments M A) (PreStepDecision M) ε
  | .short _ _ => .ends (.error tooFewArguments)
  | .full _ reason messages =>
    match listener.1 reason messages with
    | .decide decision => .ends (.ok decision)
    | .delegate replacement => .next (replacement.map (replacementArguments listener.2 reason)) .ends

/-- `_pre_step`: its terminal is `Enter` of the claimed messages. -/
def preStep (tooFewArguments reused : ε) (listeners : List (PreStepListener M × Option A)) (agent : A)
    (reason : PreStepReason) (messages : List M) : Except ε (PreStepDecision M) :=
  (EventBus.waterfall (fun _ => .enter messages) (some (restoreInstance agent)) reused
    (listeners.map (preStepCallback tooFewArguments)) (.full agent reason messages)).outcome

/-- Who decides: the first listener that does, or nobody, with the messages
handed on. -/
def decideStep (reason : PreStepReason) : List (PreStepListener M) → List M → PreStepDecision M ⊕ List M
  | [], messages => .inr messages
  | listener :: listeners, messages =>
    match listener reason messages with
    | .decide decision => .inl decision
    | .delegate replacement => decideStep reason listeners (replacement.getD messages)

/-- `PreStepContext`. -/
structure Rust.PreStepContext (M S : Type) where
  messages : List M
  reason : PreStepReason
  signal : S

/-- A listener as a callback; it may put any signal into its replacement. -/
def Rust.preStepCallback (listener : PreStepListener M × S) (current : Rust.PreStepContext M S) :
    Middleware (Rust.PreStepContext M S) (PreStepDecision M) ε :=
  match listener.1 current.reason current.messages with
  | .decide decision => .ends (.ok decision)
  | .delegate replacement =>
      .next (replacement.map fun messages => { current with messages, signal := listener.2 }) .ends

/-- `pre_step`: its terminal is `Enter` of the messages then current. -/
def Rust.preStep (nextAlreadyCalled : ε) (listeners : List (PreStepListener M × S))
    (context : Rust.PreStepContext M S) (fuel : Nat) : Option (Except ε (PreStepDecision M)) :=
  (Loop.run
    (RustEvent.turn (listeners.map Rust.preStepCallback) (fun current => .enter current.messages)
      (some fun delegated => { delegated with signal := context.signal }) nextAlreadyCalled)
    fuel { phase := .forward 0 context }).map Dispatched.outcome

/-! ### Both by who decides -/

theorem step_preStepCallback (tooFewArguments reused : ε) (listeners : List (PreStepListener M × Option A)) (agent : A)
    (reason : PreStepReason) (claimed messages : List M) (index : Nat) :
    (EventBus.step (fun _ => .enter claimed) (some (restoreInstance agent)) reused
        (listeners.map (preStepCallback tooFewArguments)) index (.full agent reason messages)).outcome =
      .ok (match decideStep reason (listeners.map Prod.fst) messages with
        | .inl decision => decision
        | .inr _ => .enter claimed) := by
  induction listeners generalizing messages index with
  | nil => rfl
  | cons listener listeners ih =>
    rw [List.map_cons, List.map_cons, decideStep]
    cases h : listener.1 reason messages with
    | decide decision =>
      have hcallback : preStepCallback tooFewArguments listener (.full agent reason messages) =
          .ends (.ok decision) := by
        simp only [preStepCallback, h]
      rw [EventBus.step_ends hcallback]
    | delegate replacement =>
      have hcallback : preStepCallback tooFewArguments listener (.full agent reason messages) =
          .next (replacement.map (replacementArguments listener.2 reason)) .ends := by
        simp only [preStepCallback, h]
      -- whatever the listener handed on, the next one gets the agent and its messages
      have hhanded : normalized (some (restoreInstance agent))
          ((replacement.map (replacementArguments listener.2 reason)).getD (.full agent reason messages)) =
          .full agent reason (replacement.getD messages) := by
        cases replacement with
        | none => rfl
        | some handed => cases listener.2 <;> rfl
      rw [EventBus.step_next hcallback, hhanded]
      exact ih (replacement.getD messages) (index + 1)

/-- Python: the decision of who decides, and else `Enter` of what was
claimed. -/
theorem preStep_eq (tooFewArguments reused : ε) (listeners : List (PreStepListener M × Option A)) (agent : A)
    (reason : PreStepReason) (messages : List M) :
    preStep tooFewArguments reused listeners agent reason messages =
      .ok (match decideStep reason (listeners.map Prod.fst) messages with
        | .inl decision => decision
        | .inr _ => .enter messages) :=
  step_preStepCallback tooFewArguments reused listeners agent reason messages messages 0

theorem Rust.step_preStepCallback (reused : ε) (listeners : List (PreStepListener M × S))
    (context : Rust.PreStepContext M S) (signal : S) (index : Nat) :
    (EventBus.step (fun current => PreStepDecision.enter current.messages)
        (some fun delegated : Rust.PreStepContext M S => { delegated with signal }) reused
        (listeners.map Rust.preStepCallback) index context).outcome =
      .ok (match decideStep context.reason (listeners.map Prod.fst) context.messages with
        | .inl decision => decision
        | .inr messages => .enter messages) := by
  induction listeners generalizing context index with
  | nil => rfl
  | cons listener listeners ih =>
    rw [List.map_cons, List.map_cons, decideStep]
    cases h : listener.1 context.reason context.messages with
    | decide decision =>
      have hcallback : (Rust.preStepCallback listener context : Middleware _ _ ε) = .ends (.ok decision) := by
        simp only [Rust.preStepCallback, h]
      rw [EventBus.step_ends hcallback]
    | delegate replacement =>
      have hcallback : (Rust.preStepCallback listener context : Middleware _ _ ε) =
          .next (replacement.map fun messages => { context with messages, signal := listener.2 }) .ends := by
        simp only [Rust.preStepCallback, h]
      rw [EventBus.step_next hcallback]
      have hrest := ih
        (normalized (some fun delegated : Rust.PreStepContext M S => { delegated with signal })
          ((replacement.map fun messages => { context with messages, signal := listener.2 }).getD context)) (index + 1)
      cases replacement with
      | none => exact hrest
      | some handed => exact hrest

/-- Rust: the decision of who decides, and else `Enter` of what was handed
on. -/
theorem Rust.preStep_eq (reused : ε) (listeners : List (PreStepListener M × S)) (context : Rust.PreStepContext M S) :
    ∃ fuel, Rust.preStep reused listeners context fuel =
      some (.ok (match decideStep context.reason (listeners.map Prod.fst) context.messages with
        | .inl decision => decision
        | .inr messages => .enter messages)) := by
  obtain ⟨⟨fuel, hrun⟩, -, -⟩ := waterfall_agrees (listeners.map (Rust.preStepCallback (ε := ε)))
    (fun current => PreStepDecision.enter current.messages)
    (some fun delegated => { delegated with signal := context.signal }) reused context
  refine ⟨fuel, ?_⟩
  rw [Rust.preStep, hrun, Option.map_some]
  exact congrArg some (Rust.step_preStepCallback reused listeners context context.signal 0)

/-! ## Turn stopping -/

/-- `TurnStopping`. -/
inductive TurnStopping
  | noOpinion
  | continue_
  | stop
deriving DecidableEq

/-- `resolve_stopping`: the first opinion other than none. -/
def resolveStopping : List TurnStopping → TurnStopping
  | [] => .continue_
  | decision :: decisions => if decision ≠ .noOpinion then decision else resolveStopping decisions

/-- `EventBus.serial`, from the value of the last listener: the next one's
value takes its place. -/
def EventBus.serial {V : Type} (result : Option V) : List (Except ε (Option V)) → Except ε (Option V)
  | [] => .ok result
  | .error e :: _ => .error e
  | .ok result :: listeners => serial result listeners

/-- `_should_stop`: the fold of the last listener's opinion. -/
def shouldStop (listeners : List (Except ε (Option TurnStopping))) : Except ε Bool :=
  match EventBus.serial none listeners with
  | .error e => .error e
  | .ok none => .ok false
  | .ok (some decision) => .ok (resolveStopping [decision] == .stop)

/-- `StoppingDispatch`. -/
structure Rust.StoppingDispatch (ε : Type) where
  opinions : List TurnStopping := []
  firstError : Option ε := none

/-- The callback that `register_should_stop_after_turn_listener` registers: it
is not called any more after an error. -/
def Rust.StoppingDispatch.listen (dispatch : Rust.StoppingDispatch ε) (listener : Except ε TurnStopping) :
    Rust.StoppingDispatch ε :=
  match dispatch.firstError, listener with
  | some _, _ => dispatch
  | none, .ok opinion => { dispatch with opinions := dispatch.opinions ++ [opinion] }
  | none, .error e => { dispatch with firstError := some e }

/-- `should_stop_after_turn`: the fold of all opinions. -/
def Rust.shouldStopAfterTurn (listeners : List (Except ε TurnStopping)) : Except ε Bool :=
  let dispatch := listeners.foldl Rust.StoppingDispatch.listen {}
  match dispatch.firstError with
  | some e => .error e
  | none => .ok (resolveStopping dispatch.opinions == .stop)

theorem resolveStopping_eq_stop (opinions : List TurnStopping) :
    resolveStopping opinions = .stop ↔ opinions.find? (· ≠ .noOpinion) = some .stop := by
  induction opinions with
  | nil => simp [resolveStopping]
  | cons opinion opinions ih => cases opinion <;> simp [resolveStopping, ih]

theorem EventBus.serial_values {V : Type} (result : Option V) (values : List V) :
    EventBus.serial (ε := ε) result (values.map fun value => .ok (some value)) = .ok (values.getLast?.or result) := by
  induction values generalizing result with
  | nil => rfl
  | cons value values ih =>
    rw [List.map_cons, serial, ih, List.getLast?_cons]
    cases values.getLast? <;> rfl

/-- Python stops when the last opinion is to. -/
theorem shouldStop_opinions (opinions : List TurnStopping) :
    shouldStop (ε := ε) (opinions.map fun opinion => .ok (some opinion)) = .ok (opinions.getLast? == some .stop) := by
  rw [shouldStop, EventBus.serial_values]
  cases opinions.getLast? with
  | none => rfl
  | some opinion => cases opinion <;> rfl

theorem Rust.listen_opinions (dispatch : Rust.StoppingDispatch ε) (h : dispatch.firstError = none)
    (opinions : List TurnStopping) :
    (opinions.map .ok).foldl Rust.StoppingDispatch.listen dispatch =
      { dispatch with opinions := dispatch.opinions ++ opinions } := by
  induction opinions generalizing dispatch with
  | nil => simp
  | cons opinion opinions ih =>
    have hlisten : dispatch.listen (.ok opinion) = { dispatch with opinions := dispatch.opinions ++ [opinion] } := by
      simp only [Rust.StoppingDispatch.listen, h]
    rw [List.map_cons, List.foldl_cons, hlisten]
    exact (ih { dispatch with opinions := dispatch.opinions ++ [opinion] } h).trans (by simp)

/-- Rust stops when the first opinion other than none is to. -/
theorem Rust.shouldStopAfterTurn_opinions (opinions : List TurnStopping) :
    Rust.shouldStopAfterTurn (ε := ε) (opinions.map .ok) = .ok (opinions.find? (· ≠ .noOpinion) == some .stop) := by
  have hdispatch := Rust.listen_opinions (ε := ε) {} rfl opinions
  rw [Rust.shouldStopAfterTurn, hdispatch]
  have hresolve : (resolveStopping opinions == .stop) = (opinions.find? (· ≠ .noOpinion) == some .stop) := by
    rw [Bool.eq_iff_iff, beq_iff_eq, beq_iff_eq]
    exact resolveStopping_eq_stop opinions
  exact congrArg Except.ok hresolve

/-- Where no listener's opinion differs from that of the last one, it is the
first opinion there is. -/
theorem find?_opinion {opinions : List TurnStopping}
    (h : ∀ opinion ∈ opinions, opinion = .noOpinion ∨ opinions.getLast? = some opinion) :
    (opinions.getLast? == some .stop) = (opinions.find? (· ≠ .noOpinion) == some .stop) := by
  cases hfind : opinions.find? (· ≠ .noOpinion) with
  | none =>
    rw [List.find?_eq_none] at hfind
    cases hlast : opinions.getLast? with
    | none => rfl
    | some last =>
      have hnone : last = .noOpinion := by simpa using hfind last (List.mem_of_getLast? hlast)
      rw [hnone]
      rfl
  | some first =>
    have hopinion : first ≠ .noOpinion := by simpa using List.find?_some hfind
    rw [(h first (List.mem_of_find?_eq_some hfind)).resolve_left hopinion]

/-! ## Both decisions -/

/-- Both bindings return the decision of the first listener that decides.  If
none does, Rust enters with the messages handed on and Python with the claimed
ones, so they agree unless the listeners have handed on others.  Rust stops
after a turn when the first opinion other than none is to stop, and so does
Python where no other opinion differs from that of the last listener. -/
theorem decisions_agree_iff (tooFewArguments reused : ε) (listeners : List (PreStepListener M × Option A × S))
    (agent : A)
    (signal : S) (reason : PreStepReason) (messages : List M) (opinions : List TurnStopping) :
    (∃ decision,
      (∃ fuel, Rust.preStep reused (listeners.map fun listener => (listener.1, listener.2.2)) ⟨messages, reason, signal⟩
        fuel = some (.ok decision)) ∧
      (∀ decided, decideStep reason (listeners.map Prod.fst) messages = .inl decided → decision = decided) ∧
      (∀ handed, decideStep reason (listeners.map Prod.fst) messages = .inr handed → decision = .enter handed) ∧
      (preStep tooFewArguments reused (listeners.map fun listener => (listener.1, listener.2.1)) agent reason messages =
          .ok decision ↔
        ∀ handed, decideStep reason (listeners.map Prod.fst) messages = .inr handed → handed = messages) ∧
      ∀ handed, decideStep reason (listeners.map Prod.fst) messages = .inr handed →
        preStep tooFewArguments reused (listeners.map fun listener => (listener.1, listener.2.1)) agent reason
          messages =
          .ok (.enter messages)) ∧
    Rust.shouldStopAfterTurn (ε := ε) (opinions.map .ok) = .ok (opinions.find? (· ≠ .noOpinion) == some .stop) ∧
    ((∀ opinion ∈ opinions, opinion = .noOpinion ∨ opinions.getLast? = some opinion) →
      shouldStop (ε := ε) (opinions.map fun opinion => .ok (some opinion)) =
        .ok (opinions.find? (· ≠ .noOpinion) == some .stop)) := by
  refine ⟨?_, Rust.shouldStopAfterTurn_opinions opinions,
    fun h => (shouldStop_opinions opinions).trans (congrArg Except.ok (find?_opinion h))⟩
  have hrust := Rust.preStep_eq reused (listeners.map fun listener => (listener.1, listener.2.2))
      ⟨messages, reason, signal⟩
  rw [preStep_eq]
  simp only [List.map_map, Function.comp_def] at hrust ⊢
  generalize decideStep reason (listeners.map fun listener => listener.1) messages = who at hrust ⊢
  cases who with
  | inl decided => exact ⟨decided, hrust, by simp, by simp, by simp, by simp⟩
  | inr handed => exact ⟨.enter handed, hrust, by simp, by simp, by simp [eq_comm], by simp⟩

/-- A listener that delegates with no messages: Rust enters with none, Python
with the claimed one.  Of a listener that stops and one that continues after
it, Rust takes the first and Python the last. -/
theorem decisions_differ :
    preStep () () [(fun _ _ => PreStepAction.delegate (some []), none)] () .initial [0] = .ok (.enter [0]) ∧
      Rust.preStep () [(fun _ _ => PreStepAction.delegate (some []), ())] ⟨[0], .initial, ()⟩ 4 =
        some (.ok (.enter [])) ∧
      shouldStop (ε := Unit) [.ok (some .stop), .ok (some .continue_)] = .ok false ∧
      Rust.shouldStopAfterTurn (ε := Unit) [.ok .stop, .ok .continue_] = .ok true :=
  ⟨rfl, rfl, rfl, rfl⟩

end

end MinionAgent
