import Mathlib.Data.List.Basic

/-!
# MinionAgent.Library.Program

Programs that change a state and may raise, and a Hoare logic for them.

A raise keeps the state reached, as in a language with exceptions.  `Triple`
has a postcondition for each way to end; its rules follow the program's
syntax, so a proof goes through a program one operation at a time.

* `Triple.bind`, `Triple.get_bind`, `Triple.tryCatch` — the rules of composition.
-/

/-- A program over the state `σ` that may raise an `ε`. -/
abbrev Program (σ ε α : Type) : Type := ExceptT ε (StateM σ) α

namespace Program

variable {σ ε α β : Type}

/-- How a program ends: what it returns or raises, and the state it leaves. -/
def exec (program : Program σ ε α) (s : σ) : Except ε α × σ := program.run.run s

/-! ## Execution -/

@[simp] theorem exec_pure (a : α) (s : σ) : exec (pure a : Program σ ε α) s = (.ok a, s) := rfl

@[simp] theorem exec_throw (e : ε) (s : σ) : exec (throw e : Program σ ε α) s = (.error e, s) := rfl

@[simp] theorem exec_get (s : σ) : exec (get : Program σ ε σ) s = (.ok s, s) := rfl

@[simp] theorem exec_modify (f : σ → σ) (s : σ) : exec (modify f : Program σ ε PUnit) s = (.ok ⟨⟩, f s) := rfl

/-- The second part runs where the first one returned. -/
theorem exec_bind (program : Program σ ε α) (f : α → Program σ ε β) (s : σ) :
    exec (program >>= f) s =
      match exec program s with
      | (.ok a, s') => exec (f a) s'
      | (.error e, s') => (.error e, s') := by
  change (ExceptT.bind program f).run.run s = _
  simp only [ExceptT.bind, exec, ExceptT.run, ExceptT.mk, bind, StateT.bind, StateT.run]
  cases program s with
  | mk result s' =>
    cases result with
    | ok a => rfl
    | error e => rfl

/-- The handler runs where the program raised. -/
theorem exec_tryCatch (program : Program σ ε α) (handler : ε → Program σ ε α) (s : σ) :
    exec (tryCatch program handler) s =
      match exec program s with
      | (.ok a, s') => (.ok a, s')
      | (.error e, s') => exec (handler e) s' := by
  change (ExceptT.tryCatch program handler).run.run s = _
  simp only [ExceptT.tryCatch, exec, ExceptT.run, ExceptT.mk, bind, StateT.bind, StateT.run]
  cases program s with
  | mk result s' =>
    cases result with
    | ok a => rfl
    | error e => rfl

/-! ## Triples -/

/-- A postcondition for each way to end. -/
def Ends (Q : α → σ → Prop) (E : ε → σ → Prop) : Except ε α × σ → Prop
  | (.ok a, s) => Q a s
  | (.error e, s) => E e s

/-- From a state with `P`, the program returns with `Q` or raises with `E`. -/
def Triple (P : σ → Prop) (program : Program σ ε α) (Q : α → σ → Prop) (E : ε → σ → Prop) : Prop :=
  ∀ s, P s → Ends Q E (exec program s)

variable {P : σ → Prop} {Q : α → σ → Prop} {E : ε → σ → Prop} {program : Program σ ε α}

theorem Ends.mono {Q' : α → σ → Prop} {E' : ε → σ → Prop} (hQ : ∀ a s, Q a s → Q' a s) (hE : ∀ e s, E e s → E' e s)
    {ended : Except ε α × σ} (h : Ends Q E ended) : Ends Q' E' ended := by
  obtain ⟨result, s⟩ := ended
  cases result with
  | ok a => exact hQ a s h
  | error e => exact hE e s h

/-- A weaker postcondition. -/
theorem Triple.imp {Q' : α → σ → Prop} (h : Triple P program Q E) (hQ : ∀ a s, Q a s → Q' a s) :
    Triple P program Q' E :=
  fun s hs => (h s hs).mono hQ fun _ _ he => he

theorem Triple.pure {a : α} (h : ∀ s, P s → Q a s) : Triple P (pure a : Program σ ε α) Q E := h

theorem Triple.throw {e : ε} (h : ∀ s, P s → E e s) : Triple P (throw e : Program σ ε α) Q E := h

/-- A stronger precondition. -/
theorem Triple.pre {P' : σ → Prop} (h : Triple P program Q E) (hP : ∀ s, P' s → P s) : Triple P' program Q E :=
  fun s hs => h s (hP s hs)

theorem Triple.modify {f : σ → σ} {Q : PUnit → σ → Prop} (h : ∀ s, P s → Q ⟨⟩ (f s)) :
    Triple P (modify f : Program σ ε PUnit) Q E := h

theorem Triple.bind {R : β → σ → Prop} {f : α → Program σ ε β} (h : Triple P program Q E)
    (hf : ∀ a, Triple (Q a) (f a) R E) : Triple P (program >>= f) R E := by
  intro s hs
  have hprogram := h s hs
  rw [exec_bind]
  generalize exec program s = ended at hprogram
  obtain ⟨result, s'⟩ := ended
  cases result with
  | ok a => exact hf a s' hprogram
  | error e => exact hprogram

/-- What follows a reading of the state starts from the state that was read. -/
theorem Triple.get_bind {R : β → σ → Prop} {f : σ → Program σ ε β}
    (h : ∀ s₀, P s₀ → Triple (fun s => s = s₀) (f s₀) R E) : Triple P (MonadState.get >>= f) R E := by
  intro s hs
  rw [exec_bind]
  exact h s hs s rfl

theorem Triple.tryCatch {F : ε → σ → Prop} {handler : ε → Program σ ε α} (h : Triple P program Q F)
    (hhandler : ∀ e, Triple (F e) (handler e) Q E) : Triple P (tryCatch program handler) Q E := by
  intro s hs
  have hprogram := h s hs
  rw [exec_tryCatch]
  generalize exec program s = ended at hprogram
  obtain ⟨result, s'⟩ := ended
  cases result with
  | ok a => exact hprogram
  | error e => exact hhandler e s' hprogram

end Program
