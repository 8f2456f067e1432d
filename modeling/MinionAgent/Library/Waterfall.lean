import Mathlib.Data.List.Basic

/-!
# MinionAgent.Library.Waterfall

Chains of around-middleware.  Each listener is handed a payload and may end the
chain there, or hand a replacement on and go on with what comes back, which it
may change.  A replacement is normalized into a payload before the next
listener sees it.

* `Waterfall.observed_of_normalize` — what every normalized payload has, every
  listener observes;
* `Waterfall.outcome_of_passesBack` — where no listener changes what comes
  back, the chain has the outcome of the point at which it turned;
* `Waterfall.outcome_transform` — a chain of transformations is a left fold.
-/

/-- What a listener does once it is called: it returns or raises, or it calls
`next` and goes on with what that gives. -/
inductive Middleware (ρ β ε : Type)
  | ends (outcome : Except ε β)
  | next (replacement : Option ρ) (resume : Except ε β → Middleware ρ β ε)

namespace Middleware

variable {α ρ β ε : Type}

/-- How a listener ends whose `next` is used up, so that each further call
raises. -/
def settle (reused : ε) : Middleware ρ β ε → Except ε β
  | ends outcome => outcome
  | next _ resume => (resume (.error reused)).settle reused

/-- A listener that hands on what it makes of its payload, and returns what
comes back. -/
def transform (f : α → Except ε ρ) (payload : α) : Middleware ρ β ε :=
  match f payload with
  | .ok replacement => .next (some replacement) .ends
  | .error e => .ends (.error e)

/-- A listener returns what comes back from the chain behind it. -/
def PassesBack (listener : α → Middleware ρ β ε) : Prop :=
  ∀ payload replacement resume, listener payload = .next replacement resume → resume = .ends

end Middleware

/-- What a dispatch leaves: the payloads the listeners were called with, how
the chain ended, and the state of the normalization. -/
structure Waterfall (α β ε ν : Type) where
  observed : List α
  outcome : Except ε β
  state : ν

namespace Waterfall

variable {α ρ β ε ν : Type} (forward : α → ρ) (normalize : ν → ρ → α × ν) (terminal : α → β) (reused : Nat → ε)

/-- The chain from the listener with this index on. -/
def dispatch : List (α → Middleware ρ β ε) → Nat → α → ν → Waterfall α β ε ν
  | [], _, current, state => { observed := [], outcome := .ok (terminal current), state }
  | listener :: rest, index, current, state =>
    match listener current with
    | .ends outcome => { observed := [current], outcome, state }
    | .next replacement resume =>
      let handed := normalize state (replacement.getD (forward current))
      let inner := dispatch rest (index + 1) handed.1 handed.2
      { observed := current :: inner.observed
        outcome := (resume inner.outcome).settle (reused index)
        state := inner.state }

/-- The outcome at which the chain turns: that of the first listener that does
not hand on, or of the terminal. -/
def turn : List (α → Middleware ρ β ε) → α → ν → Except ε β
  | [], current, _ => .ok (terminal current)
  | listener :: rest, current, state =>
    match listener current with
    | .ends outcome => outcome
    | .next replacement _ =>
      turn rest (normalize state (replacement.getD (forward current))).1
        (normalize state (replacement.getD (forward current))).2

variable {forward normalize terminal reused}

/-- Induction over a chain, one listener at a time. -/
theorem observed_of_normalize {P : α → Prop} (hnormalize : ∀ state replacement, P (normalize state replacement).1)
    (listeners : List (α → Middleware ρ β ε)) (index : Nat) {current : α} (hcurrent : P current) (state : ν) :
    ∀ payload ∈ (dispatch forward normalize terminal reused listeners index current state).observed, P payload := by
  induction listeners generalizing index current state with
  | nil => simp [dispatch]
  | cons listener rest ih =>
    rw [dispatch]
    cases listener current with
    | ends outcome => simpa using hcurrent
    | next replacement resume =>
      -- the rest of the chain starts from a normalized payload
      have hrest := ih (index + 1) (hnormalize state (replacement.getD (forward current)))
        (normalize state (replacement.getD (forward current))).2
      intro payload hpayload
      rcases List.mem_cons.mp hpayload with rfl | hbehind
      · exact hcurrent
      · exact hrest payload hbehind

theorem outcome_of_passesBack {listeners : List (α → Middleware ρ β ε)}
    (h : ∀ listener ∈ listeners, Middleware.PassesBack listener) (index : Nat) (current : α) (state : ν) :
    (dispatch forward normalize terminal reused listeners index current state).outcome =
      turn forward normalize terminal listeners current state := by
  induction listeners generalizing index current state with
  | nil => rfl
  | cons listener rest ih =>
    rw [dispatch, turn]
    cases hlistener : listener current with
    | ends outcome => rfl
    | next replacement resume =>
      rw [h listener List.mem_cons_self current replacement resume hlistener]
      exact ih (fun listener hin => h listener (List.mem_cons_of_mem _ hin)) (index + 1) _ _

/-- One round of the fold that a chain of transformations computes. -/
def transformStep (normalize : ν → ρ → α × ν) (reached : α × ν) (f : α → Except ε ρ) : Except ε (α × ν) :=
  (f reached.1).map (normalize reached.2)

theorem outcome_transform (fs : List (α → Except ε ρ)) (index : Nat) (current : α) (state : ν) :
    (dispatch forward normalize terminal reused (fs.map Middleware.transform) index current state).outcome =
      (fs.foldlM (transformStep normalize) (current, state)).map fun reached => terminal reached.1 := by
  induction fs generalizing index current state with
  | nil => rfl
  | cons f fs ih =>
    rw [List.map_cons, dispatch, List.foldlM_cons, transformStep, Middleware.transform]
    cases f current with
    | error e => rfl
    | ok changed => exact ih (index + 1) _ _

end Waterfall
