import Mathlib.Data.List.Nodup
import Mathlib.Logic.Function.Basic

/-!
# MinionAgent.Runtime.Disposable

Reverse-ordered disposal (`runtime/disposable.py`) and the effects collected
into it (`Fiber.effect` in `runtime/fiber.py`, `_scoped_effect` in
`runtime/context.py`).

An owner may use one `DisposableList` after another, while handles still point
into the earlier ones: `Disposables` is every list of an owner and every effect
created on it, both numbered in the order of their creation.

* `push`, `handle?`, `beginDispose`, `resume` — the operations, each up to the
  next `await`;
* `Disposables.Sound` — how slots, effects and disposers belong together,
  kept by every operation.
-/

namespace MinionAgent

/-- How far `dispose_all` of a list is.  Only its first call gets past the
`_disposed` flag: that one is not begun, or it has still to visit the slots
below some slot, or it is over. -/
inductive Progress
  | idle
  | running (below : Nat) (failed : Bool)
  | done (raised : Bool)
deriving DecidableEq

/-- `DisposableList`: its slots, which hold effects by number. -/
structure DisposableList where
  disposers : List (Option Nat) := []
  progress : Progress := .idle
deriving DecidableEq

/-- `disposed`. -/
def DisposableList.disposed (l : DisposableList) : Bool := l.progress != .idle

/-- One effect: the slot its `run_disposer` was pushed to. -/
structure Effect where
  list : Nat
  slot : Nat
deriving DecidableEq

/-- The lists of an owner, the effects created on it, and the effects whose
disposers were started, in that order, with whether `dispose_all` did it. -/
structure Disposables where
  lists : Nat → DisposableList := fun _ => {}
  count : Nat := 1
  effects : List Effect := []
  started : List (Nat × Bool) := []

namespace Disposables

/-- `settled` of an effect: its disposer was started. -/
def settled (d : Disposables) (e : Nat) : Bool := d.started.any fun started => started.1 == e

/-- Whether an effect exists whose disposer was not started. -/
def isLive (d : Disposables) (e : Nat) : Bool := decide (e < d.effects.length) && !d.settled e

/-- A list is replaced. -/
def setList (d : Disposables) (list : Nat) (l : DisposableList) : Disposables :=
  { d with lists := Function.update d.lists list l }

/-- A new list. -/
def fresh (d : Disposables) : Disposables := { d.setList d.count {} with count := d.count + 1 }

/-- `push`: a new effect in the next slot of a list. -/
def push (d : Disposables) (list : Nat) : Disposables :=
  { d.setList list { d.lists list with disposers := (d.lists list).disposers ++ [some d.effects.length] } with
    effects := d.effects ++ [{ list, slot := (d.lists list).disposers.length }] }

/-- The beginning of `run_disposer`, which later calls find settled. -/
def start (d : Disposables) (e : Nat) (unwound : Bool) : Disposables :=
  { d with started := d.started ++ [(e, unwound)] }

/-- `run_disposer`: nothing when it was called before. -/
def runDisposer (d : Disposables) (e : Nat) : Disposables := if d.isLive e then d.start e false else d

/-- `remove`: the assignment to a slot, which raises `IndexError` past the
last one. -/
def remove? (d : Disposables) (effect : Effect) : Option Disposables :=
  if effect.slot < (d.lists effect.list).disposers.length then
    some (d.setList effect.list
      { d.lists effect.list with disposers := (d.lists effect.list).disposers.set effect.slot none })
  else
    none

/-- The handle of an effect, up to the disposer it awaits; `none` when it
raises. -/
def handle? (d : Disposables) (e : Nat) : Option Disposables :=
  match d.effects[e]? with
  | some effect => (d.remove? effect).map (runDisposer · e)
  | none => some d

/-- The next disposer of `dispose_all` below a slot, and its slot. -/
def next (d : Disposables) (list : Nat) : Nat → Option (Nat × Nat)
  | 0 => none
  | slot + 1 =>
    match (d.lists list).disposers[slot]? with
    | some (some e) => if d.isLive e then some (e, slot) else d.next list slot
    | _ => d.next list slot

/-- The loop of `dispose_all` after a disposer: it starts the next one, or
clears the list. -/
def resume (d : Disposables) (list : Nat) (raised : Bool) : Disposables :=
  match (d.lists list).progress with
  | .running below failed =>
    match d.next list below with
    | some (e, slot) =>
      (d.setList list { d.lists list with progress := .running slot (failed || raised) }).start e true
    | none => d.setList list { disposers := [], progress := .done (failed || raised) }
  | _ => d

/-- `dispose_all`, up to the first disposer it awaits. -/
def beginDispose (d : Disposables) (list : Nat) : Disposables :=
  if (d.lists list).disposed then
    d
  else
    (d.setList list { d.lists list with progress := .running (d.lists list).disposers.length false }).resume list false

/-! ## Liveness -/

variable (d : Disposables)

@[simp] theorem isLive_setList (list : Nat) (l : DisposableList) (e : Nat) :
    (d.setList list l).isLive e = d.isLive e := rfl

@[simp] theorem isLive_fresh (e : Nat) : d.fresh.isLive e = d.isLive e := rfl

@[simp] theorem settled_push (list e : Nat) : (d.push list).settled e = d.settled e := rfl

theorem settled_start (e e' : Nat) (unwound : Bool) :
    (d.start e unwound).settled e' = (d.settled e' || e == e') := by
  simp [settled, start]

theorem settled_eq_true {d : Disposables} {e : Nat} : d.settled e = true ↔ ∃ unwound, (e, unwound) ∈ d.started := by
  simp [settled]

/-- Starting a disposer settles its effect alone. -/
theorem isLive_start (e e' : Nat) (unwound : Bool) :
    (d.start e unwound).isLive e' = (d.isLive e' && e' != e) := by
  rw [isLive, isLive, settled_start, Bool.not_or, ← Bool.and_assoc, bne, BEq.comm]
  rfl

theorem isLive_runDisposer (e e' : Nat) : (d.runDisposer e).isLive e' = (d.isLive e' && e' != e) := by
  rw [runDisposer]
  by_cases h : d.isLive e = true
  · rw [if_pos h, isLive_start]
  · rw [if_neg h]
    by_cases heq : e' = e
    · subst heq
      simp [h]
    · simp [heq]

theorem lt_of_isLive {d : Disposables} {e : Nat} (h : d.isLive e = true) : e < d.effects.length := by
  simp only [isLive, Bool.and_eq_true, decide_eq_true_eq] at h
  exact h.1

/-! ## The unwinding loop -/

variable {d}

/-- The disposer that is run next is the live one in the highest slot. -/
theorem next_eq_some {list pos e slot : Nat} (h : d.next list pos = some (e, slot)) :
    slot < pos ∧ (d.lists list).disposers[slot]? = some (some e) ∧ d.isLive e = true ∧
      ∀ i e', slot < i → i < pos → (d.lists list).disposers[i]? = some (some e') → d.isLive e' = false := by
  induction pos with
  | zero => cases h
  | succ pos ih =>
    have hlater (hrest : d.next list pos = some (e, slot))
        (hpos : ∀ e', (d.lists list).disposers[pos]? = some (some e') → d.isLive e' = false) :
        slot < pos + 1 ∧ (d.lists list).disposers[slot]? = some (some e) ∧ d.isLive e = true ∧
          ∀ i e', slot < i → i < pos + 1 → (d.lists list).disposers[i]? = some (some e') → d.isLive e' = false := by
      obtain ⟨hlt, hslot, hlive, habove⟩ := ih hrest
      refine ⟨by omega, hslot, hlive, fun i e' hi hi' he' => ?_⟩
      by_cases heq : i = pos
      · subst heq
        exact hpos e' he'
      · exact habove i e' hi (by omega) he'
    rw [next] at h
    split at h
    · next e₀ hslot =>
      split at h
      · next hlive =>
        cases h
        exact ⟨by omega, hslot, hlive, fun i e' hi hi' => by omega⟩
      · next hdead =>
        refine hlater h fun e' he' => ?_
        rw [hslot, Option.some.injEq, Option.some.injEq] at he'
        subst he'
        simpa using hdead
    · next hempty =>
      exact hlater h fun e' he' => absurd he' (hempty e')

/-- When nothing is left, no live disposer is in a lower slot. -/
theorem next_eq_none {list pos : Nat} (h : d.next list pos = none) {i e : Nat} (hi : i < pos)
    (he : (d.lists list).disposers[i]? = some (some e)) : d.isLive e = false := by
  induction pos with
  | zero => omega
  | succ pos ih =>
    rw [next] at h
    by_cases heq : i = pos
    · subst heq
      rw [he] at h
      simp only at h
      split at h
      · cases h
      · next hdead => simpa using hdead
    · have hrest : d.next list pos = none := by
        split at h
        · split at h
          · cases h
          · exact h
        · exact h
      exact ih hrest (by omega)

/-! ## What the operations leave alone -/

@[simp] theorem lists_start (e : Nat) (unwound : Bool) : (d.start e unwound).lists = d.lists := rfl
@[simp] theorem effects_start (e : Nat) (unwound : Bool) : (d.start e unwound).effects = d.effects := rfl
@[simp] theorem count_start (e : Nat) (unwound : Bool) : (d.start e unwound).count = d.count := rfl
@[simp] theorem effects_setList (list : Nat) (l : DisposableList) : (d.setList list l).effects = d.effects := rfl
@[simp] theorem count_setList (list : Nat) (l : DisposableList) : (d.setList list l).count = d.count := rfl
@[simp] theorem lists_setList_self (list : Nat) (l : DisposableList) : (d.setList list l).lists list = l :=
  Function.update_self _ _ _

@[simp] theorem lists_runDisposer (e : Nat) : (d.runDisposer e).lists = d.lists := by
  rw [runDisposer]
  split <;> rfl

@[simp] theorem effects_runDisposer (e : Nat) : (d.runDisposer e).effects = d.effects := by
  rw [runDisposer]
  split <;> rfl

@[simp] theorem count_runDisposer (e : Nat) : (d.runDisposer e).count = d.count := by
  rw [runDisposer]
  split <;> rfl

theorem lists_setList_of_ne {list list' : Nat} (h : list' ≠ list) (l : DisposableList) :
    (d.setList list l).lists list' = d.lists list' := Function.update_of_ne h _ _

theorem lists_resume_of_ne {list list' : Nat} (h : list' ≠ list) (raised : Bool) :
    (d.resume list raised).lists list' = d.lists list' := by
  rw [resume]
  split
  · split
    · rw [lists_start, lists_setList_of_ne h]
    · rw [lists_setList_of_ne h]
  · rfl

@[simp] theorem count_resume (list : Nat) (raised : Bool) : (d.resume list raised).count = d.count := by
  rw [resume]
  split
  · split <;> rfl
  · rfl

@[simp] theorem effects_resume (list : Nat) (raised : Bool) : (d.resume list raised).effects = d.effects := by
  rw [resume]
  split
  · split <;> rfl
  · rfl

theorem lists_beginDispose_of_ne {list list' : Nat} (h : list' ≠ list) :
    (d.beginDispose list).lists list' = d.lists list' := by
  rw [beginDispose]
  split
  · rfl
  · rw [lists_resume_of_ne h, lists_setList_of_ne h]

@[simp] theorem count_beginDispose (list : Nat) : (d.beginDispose list).count = d.count := by
  rw [beginDispose]
  split
  · rfl
  · rw [count_resume, count_setList]

/-- A list stays in disposal. -/
theorem progress_resume (list : Nat) (raised : Bool) (h : (d.lists list).progress ≠ .idle) :
    ((d.resume list raised).lists list).progress ≠ .idle := by
  rw [resume]
  split
  · split
    · rw [lists_start, lists_setList_self]
      exact Progress.noConfusion
    · rw [lists_setList_self]
      exact Progress.noConfusion
  · exact h

theorem progress_beginDispose (list : Nat) : ((d.beginDispose list).lists list).progress ≠ .idle := by
  rw [beginDispose]
  split
  · next hdisposed => simpa [DisposableList.disposed] using hdisposed
  · exact progress_resume list false (by rw [lists_setList_self]; exact Progress.noConfusion)

/-- A handle settles its own effect at most. -/
theorem handle?_frame {d' : Disposables} {e : Nat} (h : d.handle? e = some d') :
    d'.effects = d.effects ∧ d'.count = d.count ∧ (∀ list, (d'.lists list).progress = (d.lists list).progress) ∧
      ∀ e', d'.isLive e' = (d.isLive e' && e' != e) := by
  rw [handle?] at h
  cases he : d.effects[e]? with
  | none =>
    rw [he] at h
    cases h
    refine ⟨rfl, rfl, fun _ => rfl, fun e' => ?_⟩
    by_cases heq : e' = e
    · subst heq
      have hge := List.getElem?_eq_none_iff.mp he
      simp [isLive, Nat.not_lt.mpr hge]
    · simp [heq]
  | some effect =>
    rw [he] at h
    simp only [remove?] at h
    split at h
    · cases h
      refine ⟨effects_runDisposer e, count_runDisposer e, fun list => ?_, isLive_runDisposer _ e⟩
      · show ((runDisposer _ e).lists list).progress = _
        rw [lists_runDisposer]
        by_cases heq : list = effect.list
        · rw [heq, lists_setList_self]
        · rw [lists_setList_of_ne heq]
    · cases h

theorem progress_push (list list' : Nat) : ((d.push list).lists list').progress = (d.lists list').progress := by
  simp only [push, setList, Function.update_apply]
  grind

/-- What was there before is not touched by a new effect. -/
theorem effects_push {e list : Nat} {effect : Effect} (h : d.effects[e]? = some effect) :
    (d.push list).effects[e]? = some effect := by
  rw [push, List.getElem?_append_left (List.getElem?_eq_some_iff.mp h).1]
  exact h

theorem effects_push_new (list : Nat) :
    (d.push list).effects[d.effects.length]? = some ⟨list, (d.lists list).disposers.length⟩ := by
  simp [push]

theorem isLive_push {e list : Nat} (h : (d.push list).isLive e = true) : d.isLive e = true ∨ e = d.effects.length := by
  rw [isLive, settled_push, Bool.and_eq_true, decide_eq_true_eq, push, List.length_append, List.length_singleton] at h
  rcases Nat.lt_succ_iff_lt_or_eq.mp h.1 with hlt | heq
  · exact .inl (by rw [isLive, h.2, decide_eq_true hlt]; rfl)
  · exact .inr heq

theorem lists_fresh_of_lt {list : Nat} (h : list < d.count) : d.fresh.lists list = d.lists list :=
  Function.update_of_ne (Nat.ne_of_lt h) _ _

@[simp] theorem lists_fresh_count : d.fresh.lists d.count = {} := Function.update_self _ _ _

/-! ## How slots, effects and disposers belong together -/

/-- Whether `dispose_all` of a list is over. -/
def isDone (d : Disposables) (list : Nat) : Prop := ∃ raised, (d.lists list).progress = .done raised

/-- The disposers `dispose_all` started, in the order of starting. -/
def unwound (d : Disposables) : List Nat := (d.started.filter Prod.snd).map Prod.fst

/-- Two effects pushed to one list. -/
def SameList (d : Disposables) (e e' : Nat) : Prop :=
  ∃ list slot slot' : Nat, d.effects[e]? = some ⟨list, slot⟩ ∧ d.effects[e']? = some ⟨list, slot'⟩

theorem mem_unwound {e : Nat} : e ∈ d.unwound ↔ (e, true) ∈ d.started := by
  simp [unwound]

variable (d) in
/-- Slots hold the effects pushed to them; effects are on lists of the owner,
and a live one is in its slot until its list is cleared; disposers are started
once, and those of one list in the reverse order of their creation. -/
structure Sound : Prop where
  holds : ∀ list slot e : Nat, (d.lists list).disposers[slot]? = some (some e) → d.effects[e]? = some ⟨list, slot⟩
  counted : ∀ e list slot : Nat, d.effects[e]? = some ⟨list, slot⟩ → list < d.count
  placed : ∀ e list slot : Nat, d.effects[e]? = some ⟨list, slot⟩ → ¬ d.isDone list →
    slot < (d.lists list).disposers.length ∧
      (d.settled e = false → (d.lists list).disposers[slot]? = some (some e))
  cleared : ∀ list, d.isDone list → (d.lists list).disposers = []
  ascending : ∀ e e' list slot slot' : Nat, d.effects[e]? = some ⟨list, slot⟩ → d.effects[e']? = some ⟨list, slot'⟩ →
    e < e' → slot < slot'
  once : (d.started.map Prod.fst).Nodup
  created : ∀ e, d.settled e = true → e < d.effects.length
  begun : ∀ e list slot : Nat, (e, true) ∈ d.started → d.effects[e]? = some ⟨list, slot⟩ →
    (d.lists list).progress ≠ .idle
  passed : ∀ (e list slot below : Nat) (failed : Bool), (e, true) ∈ d.started → d.effects[e]? = some ⟨list, slot⟩ →
    (d.lists list).progress = .running below failed → below ≤ slot
  descending : d.unwound.Pairwise fun e e' => d.SameList e e' → e' < e

namespace Sound

theorem initial : Sound {} := by
  constructor <;> simp [settled, unwound]

/-- Something new is pushed to a list that is not cleared yet. -/
theorem push (h : Sound d) {list : Nat} (hcount : list < d.count) (hdone : ¬ d.isDone list) : Sound (d.push list) := by
  have hnew {e l s : Nat} (he : (d.push list).effects[e]? = some ⟨l, s⟩) :
      d.effects[e]? = some ⟨l, s⟩ ∨ e = d.effects.length ∧ l = list ∧ s = (d.lists list).disposers.length := by
    simp only [Disposables.push, List.getElem?_append, List.getElem?_singleton] at he
    split at he
    · exact .inl he
    · split at he
      · next hle heq =>
        simp only [Option.some.injEq, Effect.mk.injEq] at he
        exact .inr ⟨by omega, he.1.symm, he.2.symm⟩
      · cases he
  have hprogress := progress_push (d := d) list
  have hslots (l : Nat) : ((d.push list).lists l).disposers
      = (d.lists l).disposers ++ if l = list then [some d.effects.length] else [] := by
    simp only [Disposables.push, setList, Function.update_apply]
    grind
  have hisDone (l : Nat) : (d.push list).isDone l ↔ d.isDone l := by rw [isDone, isDone, hprogress]
  have hunstarted (unwound : Bool) : (d.effects.length, unwound) ∉ d.started := fun hmem =>
    Nat.lt_irrefl _ (h.created _ (settled_eq_true.mpr ⟨unwound, hmem⟩))
  constructor
  · intro l slot e hslot
    rw [hslots, List.getElem?_append] at hslot
    split at hslot
    · exact effects_push (h.holds l slot e hslot)
    · split at hslot
      · next hle hl =>
        subst hl
        rw [List.getElem?_singleton] at hslot
        split at hslot
        · cases hslot
          rw [Disposables.push, List.getElem?_append_right (Nat.le_refl _), Nat.sub_self]
          have hslot : slot = (d.lists l).disposers.length := by omega
          rw [hslot]
          rfl
        · cases hslot
      · cases hslot
  · intro e l slot he
    rcases hnew he with he | ⟨-, rfl, -⟩
    · exact h.counted e l slot he
    · exact hcount
  · intro e l slot he hl
    rw [hisDone] at hl
    rw [hslots]
    rcases hnew he with he | ⟨rfl, rfl, rfl⟩
    · obtain ⟨hlt, hslot⟩ := h.placed e l slot he hl
      refine ⟨by rw [List.length_append]; omega, fun hsettled => ?_⟩
      rw [List.getElem?_append_left hlt]
      exact hslot hsettled
    · simp
  · intro l hl
    rw [hisDone] at hl
    have hne : l ≠ list := by
      rintro rfl
      exact hdone hl
    rw [hslots, h.cleared l hl, if_neg hne, List.nil_append]
  · intro e e' l slot slot' he he' hlt
    rcases hnew he with hwas | ⟨rfl, rfl, rfl⟩
    · rcases hnew he' with hwas' | ⟨rfl, rfl, rfl⟩
      · exact h.ascending e e' l slot slot' hwas hwas' hlt
      · exact (h.placed e l slot hwas hdone).1
    · rcases hnew he' with he' | ⟨rfl, -, -⟩
      · have hbound := (List.getElem?_eq_some_iff.mp he').1
        omega
      · omega
  · exact h.once
  · intro e he
    have hbound := h.created e he
    rw [Disposables.push, List.length_append]
    omega
  · intro e l slot hmem he
    rw [hprogress]
    rcases hnew he with he | ⟨rfl, -, -⟩
    · exact h.begun e l slot hmem he
    · exact absurd hmem (hunstarted true)
  · intro e l slot below failed hmem he
    rw [hprogress]
    rcases hnew he with he | ⟨rfl, -, -⟩
    · exact h.passed e l slot below failed hmem he
    · exact absurd hmem (hunstarted true)
  · refine h.descending.imp_of_mem fun {e e'} hmem hmem' himp hsame => ?_
    obtain ⟨l, slot, slot', he, he'⟩ := hsame
    rcases hnew he with he | ⟨rfl, -, -⟩
    · rcases hnew he' with he' | ⟨rfl, -, -⟩
      · exact himp ⟨l, slot, slot', he, he'⟩
      · exact absurd (mem_unwound.mp hmem') (hunstarted true)
    · exact absurd (mem_unwound.mp hmem) (hunstarted true)

/-- A slot is emptied whose effect is settled. -/
theorem remove (h : Sound d) {e list slot : Nat} (he : d.effects[e]? = some ⟨list, slot⟩)
    (hsettled : d.settled e = true) :
    Sound (d.setList list { d.lists list with disposers := (d.lists list).disposers.set slot none }) := by
  set l' : DisposableList := { d.lists list with disposers := (d.lists list).disposers.set slot none }
  have hprogress (l : Nat) : ((d.setList list l').lists l).progress = (d.lists l).progress := by
    simp only [setList, Function.update_apply]
    grind
  have hisDone (l : Nat) : (d.setList list l').isDone l ↔ d.isDone l := by rw [isDone, isDone, hprogress]
  have hother {l : Nat} (hne : l ≠ list) : (d.setList list l').lists l = d.lists l := Function.update_of_ne hne _ _
  have hself : (d.setList list l').lists list = l' := Function.update_self _ _ _
  constructor
  · intro l i x hslot
    by_cases hl : l = list
    · subst hl
      rw [hself, List.getElem?_set] at hslot
      split at hslot
      · split at hslot <;> cases hslot
      · exact h.holds l i x hslot
    · rw [hother hl] at hslot
      exact h.holds l i x hslot
  · exact h.counted
  · intro x l i hx hl
    rw [hisDone] at hl
    obtain ⟨hlt, hslot⟩ := h.placed x l i hx hl
    by_cases heq : l = list
    · subst heq
      rw [hself, List.length_set]
      refine ⟨hlt, fun hx' => ?_⟩
      have hne : slot ≠ i := by
        rintro rfl
        have hheld := h.holds l slot x (hslot hx')
        have hxe : x = e := by
          rcases Nat.lt_trichotomy x e with hlt' | heq | hgt
          · exact absurd (h.ascending x e l slot slot hx he hlt') (Nat.lt_irrefl _)
          · exact heq
          · exact absurd (h.ascending e x l slot slot he hx hgt) (Nat.lt_irrefl _)
        rw [hxe] at hx'
        exact Bool.false_ne_true (hx'.symm.trans hsettled)
      rw [List.getElem?_set_ne hne]
      exact hslot hx'
    · rw [hother heq]
      exact ⟨hlt, hslot⟩
  · intro l hl
    rw [hisDone] at hl
    by_cases heq : l = list
    · subst heq
      rw [hself]
      show (d.lists l).disposers.set slot none = []
      rw [h.cleared l hl]
      rfl
    · rw [hother heq]
      exact h.cleared l hl
  · exact h.ascending
  · exact h.once
  · exact h.created
  · intro x l i hx hl
    rw [hprogress]
    exact h.begun x l i hx hl
  · intro x l i below failed hx hl
    rw [hprogress]
    exact h.passed x l i below failed hx hl
  · exact h.descending

/-- A live effect's disposer is started: by its handle, or by `dispose_all`,
which has then passed its slot and only started disposers of higher ones. -/
theorem start (h : Sound d) {e : Nat} {unwound : Bool} (hlive : d.isLive e = true)
    (hunwound : unwound = true → ∀ list slot : Nat, d.effects[e]? = some ⟨list, slot⟩ →
      (∃ below failed, (d.lists list).progress = .running below failed ∧ below ≤ slot) ∧
        ∀ x i : Nat, (x, true) ∈ d.started → d.effects[x]? = some ⟨list, i⟩ → slot < i) :
    Sound (d.start e unwound) := by
  have hfresh (b : Bool) : (e, b) ∉ d.started := by
    intro hmem
    have hsettled := settled_eq_true.mpr ⟨b, hmem⟩
    rw [isLive, hsettled] at hlive
    simp at hlive
  have hmem {x : Nat} (hx : (x, true) ∈ (d.start e unwound).started) :
      (x, true) ∈ d.started ∨ x = e ∧ unwound = true := by
    simp only [Disposables.start, List.mem_append, List.mem_singleton, Prod.mk.injEq] at hx
    rcases hx with hx | ⟨rfl, hx⟩
    · exact .inl hx
    · exact .inr ⟨rfl, hx.symm⟩
  constructor
  · exact h.holds
  · exact h.counted
  · intro x l i hx hl
    obtain ⟨hlt, hslot⟩ := h.placed x l i hx hl
    refine ⟨hlt, fun hx' => hslot ?_⟩
    rw [settled_start, Bool.or_eq_false_iff] at hx'
    exact hx'.1
  · exact h.cleared
  · exact h.ascending
  · rw [Disposables.start, List.map_append, List.nodup_append]
    refine ⟨h.once, by simp, ?_⟩
    intro x hx y hy
    obtain ⟨⟨x', b⟩, hx', rfl⟩ := List.mem_map.mp hx
    rw [List.map_singleton, List.mem_singleton] at hy
    rintro rfl
    simp only at hy
    subst hy
    exact hfresh b hx'
  · intro x hx
    rw [settled_start, Bool.or_eq_true] at hx
    rcases hx with hx | hx
    · exact h.created x hx
    · rw [beq_iff_eq] at hx
      subst hx
      exact lt_of_isLive (d := d) hlive
  · intro x l i hx hl
    rcases hmem hx with hx | ⟨rfl, rfl⟩
    · exact h.begun x l i hx hl
    · obtain ⟨⟨below, failed, hrunning, -⟩, -⟩ := hunwound rfl l i hl
      rw [Disposables.start, hrunning]
      exact Progress.noConfusion
  · intro x l i below failed hx hl hrunning
    rcases hmem hx with hx | ⟨rfl, rfl⟩
    · exact h.passed x l i below failed hx hl hrunning
    · obtain ⟨⟨below', failed', hrunning', hle⟩, -⟩ := hunwound rfl l i hl
      have heq : Progress.running below failed = .running below' failed' := hrunning.symm.trans hrunning'
      cases heq
      exact hle
  · cases unwound with
    | false =>
      have hsame : (d.start e false).unwound = d.unwound := by simp [Disposables.start, Disposables.unwound]
      rw [hsame]
      exact h.descending
    | true =>
      have hsnoc : (d.start e true).unwound = d.unwound ++ [e] := by simp [Disposables.start, Disposables.unwound]
      rw [hsnoc, List.pairwise_append]
      refine ⟨h.descending, List.pairwise_singleton _ _, ?_⟩
      intro x hx y hy hsame
      rw [List.mem_singleton] at hy
      subst hy
      obtain ⟨l, i, slot, hxl, hel⟩ := hsame
      have hlt := (hunwound rfl l slot hel).2 x i (mem_unwound.mp hx) hxl
      rcases Nat.lt_trichotomy x y with hxy | rfl | hxy
      · have hgt := h.ascending x y l i slot hxl hel hxy
        omega
      · exact absurd (mem_unwound.mp hx) (hfresh true)
      · exact hxy

/-- A disposer is started by a handle. -/
theorem runDisposer (h : Sound d) (e : Nat) : Sound (d.runDisposer e) := by
  rw [Disposables.runDisposer]
  split
  · next hlive => exact h.start hlive fun hfalse => absurd hfalse Bool.false_ne_true
  · exact h

theorem handle (h : Sound d) {d' : Disposables} {e : Nat} (hhandle : d.handle? e = some d') : Sound d' := by
  rw [handle?] at hhandle
  cases he : d.effects[e]? with
  | none =>
    rw [he] at hhandle
    cases hhandle
    exact h
  | some effect =>
    obtain ⟨list, slot⟩ := effect
    rw [he] at hhandle
    simp only [remove?] at hhandle
    split at hhandle
    · cases hhandle
      have hsettled : (d.runDisposer e).settled e = true := by
        rw [Disposables.runDisposer]
        split
        · simp [settled_start]
        · next hdead =>
          have hlt := (List.getElem?_eq_some_iff.mp he).1
          simpa [isLive, hlt] using hdead
      have hremove := (h.runDisposer e).remove (by rw [effects_runDisposer]; exact he) hsettled
      rw [lists_runDisposer] at hremove
      have hcomm (l : DisposableList) : (d.setList list l).runDisposer e = (d.runDisposer e).setList list l := by
        rw [Disposables.runDisposer, Disposables.runDisposer, isLive_setList]
        split <;> rfl
      show (Disposables.runDisposer _ e).Sound
      rw [hcomm]
      exact hremove
    · cases hhandle

/-- `dispose_all` begins, or goes on to a lower slot. -/
theorem proceed (h : Sound d) {list below : Nat} {failed : Bool}
    (hprogress : (d.lists list).progress = .idle ∨ ∃ above failed',
      (d.lists list).progress = .running above failed' ∧ below ≤ above) :
    Sound (d.setList list { d.lists list with progress := .running below failed }) := by
  set l' : DisposableList := { d.lists list with progress := .running below failed }
  have hslots (l : Nat) : ((d.setList list l').lists l).disposers = (d.lists l).disposers := by
    simp only [setList, Function.update_apply]
    grind
  have hother {l : Nat} (hne : l ≠ list) : (d.setList list l').lists l = d.lists l := Function.update_of_ne hne _ _
  have hself : (d.setList list l').lists list = l' := Function.update_self _ _ _
  have hisDone (l : Nat) : (d.setList list l').isDone l ↔ d.isDone l := by
    rw [isDone, isDone]
    by_cases heq : l = list
    · subst heq
      rw [hself]
      grind
    · rw [hother heq]
  constructor
  · intro l i x
    rw [hslots]
    exact h.holds l i x
  · exact h.counted
  · intro x l i hx hl
    rw [hisDone] at hl
    rw [hslots]
    exact h.placed x l i hx hl
  · intro l hl
    rw [hisDone] at hl
    rw [hslots]
    exact h.cleared l hl
  · exact h.ascending
  · exact h.once
  · exact h.created
  · intro x l i hx hl
    by_cases heq : l = list
    · subst heq
      rw [hself]
      exact Progress.noConfusion
    · rw [hother heq]
      exact h.begun x l i hx hl
  · intro x l i below' failed' hx hl hrunning
    by_cases heq : l = list
    · subst heq
      rw [hself] at hrunning
      cases hrunning
      rcases hprogress with hidle | ⟨above, failed'', habove, hle⟩
      · exact absurd hidle (h.begun x l i hx hl)
      · exact Nat.le_trans hle (h.passed x l i above failed'' hx hl habove)
    · rw [hother heq] at hrunning
      exact h.passed x l i below' failed' hx hl hrunning
  · exact h.descending

/-- `dispose_all` is over. -/
theorem clear (h : Sound d) {list : Nat} {raised : Bool} (hbegun : (d.lists list).progress ≠ .idle) :
    Sound (d.setList list { disposers := [], progress := .done raised }) := by
  set l' : DisposableList := { disposers := [], progress := .done raised }
  have hother {l : Nat} (hne : l ≠ list) : (d.setList list l').lists l = d.lists l := Function.update_of_ne hne _ _
  have hself : (d.setList list l').lists list = l' := Function.update_self _ _ _
  constructor
  · intro l i x hslot
    by_cases heq : l = list
    · subst heq
      rw [hself] at hslot
      simp [l'] at hslot
    · rw [hother heq] at hslot
      exact h.holds l i x hslot
  · exact h.counted
  · intro x l i hx hl
    by_cases heq : l = list
    · subst heq
      exact absurd ⟨raised, by rw [hself]⟩ hl
    · rw [isDone, hother heq] at hl
      rw [hother heq]
      exact h.placed x l i hx hl
  · intro l hl
    by_cases heq : l = list
    · subst heq
      rw [hself]
    · rw [isDone, hother heq] at hl
      rw [hother heq]
      exact h.cleared l hl
  · exact h.ascending
  · exact h.once
  · exact h.created
  · intro x l i hx hl
    by_cases heq : l = list
    · subst heq
      rw [hself]
      exact Progress.noConfusion
    · rw [hother heq]
      exact h.begun x l i hx hl
  · intro x l i below failed hx hl hrunning
    by_cases heq : l = list
    · subst heq
      rw [hself] at hrunning
      cases hrunning
    · rw [hother heq] at hrunning
      exact h.passed x l i below failed hx hl hrunning
  · exact h.descending

theorem resume (h : Sound d) (list : Nat) (raised : Bool) : Sound (d.resume list raised) := by
  rw [Disposables.resume]
  split
  · next below failed hrunning =>
    split
    · next e slot hnext =>
      obtain ⟨hlt, hslot, hlive, -⟩ := next_eq_some hnext
      have hproceed : Sound (d.setList list { d.lists list with progress := .running slot (failed || raised) }) :=
        h.proceed (.inr ⟨below, failed, hrunning, Nat.le_of_lt hlt⟩)
      refine hproceed.start hlive fun _ l i he => ?_
      have hel : d.effects[e]? = some ⟨list, slot⟩ := h.holds list slot e hslot
      have heq : Effect.mk list slot = ⟨l, i⟩ := Option.some.inj (hel.symm.trans he)
      cases heq
      refine ⟨⟨slot, failed || raised, by simp [setList], Nat.le_refl _⟩, fun x i hx hxl => ?_⟩
      have hpassed := h.passed x list i below failed hx hxl hrunning
      omega
    · exact h.clear (by rw [hrunning]; exact Progress.noConfusion)
  · exact h

theorem beginDispose (h : Sound d) (list : Nat) : Sound (d.beginDispose list) := by
  rw [Disposables.beginDispose]
  split
  · exact h
  · next hidle =>
    refine Sound.resume (h.proceed (.inl ?_)) list false
    simpa [DisposableList.disposed] using hidle

theorem fresh (h : Sound d) : Sound d.fresh := by
  have hold {e l i : Nat} (he : d.effects[e]? = some ⟨l, i⟩) : d.fresh.lists l = d.lists l :=
    Function.update_of_ne (Nat.ne_of_lt (h.counted e l i he)) _ _
  have hnew (l : Nat) : d.fresh.lists l = {} ∨ d.fresh.lists l = d.lists l := by
    simp only [Disposables.fresh, setList, Function.update_apply]
    grind
  constructor
  · intro l i e hslot
    rcases hnew l with heq | heq
    · rw [heq] at hslot
      simp at hslot
    · rw [heq] at hslot
      exact h.holds l i e hslot
  · intro e l i he
    exact Nat.lt_succ_of_lt (h.counted e l i he)
  · intro e l i he
    rw [isDone, hold he]
    exact h.placed e l i he
  · intro l hl
    rcases hnew l with heq | heq
    · rw [heq]
    · rw [isDone, heq] at hl
      rw [heq]
      exact h.cleared l hl
  · exact h.ascending
  · exact h.once
  · exact h.created
  · intro e l i he hl
    rw [hold hl]
    exact h.begun e l i he hl
  · intro e l i below failed he hl
    rw [hold hl]
    exact h.passed e l i below failed he hl
  · exact h.descending

end Sound

/-! ## What is left to be disposed -/

/-- `dispose_all` of its list has an effect's slot still to visit. -/
def Awaited (d : Disposables) (e : Nat) : Prop :=
  ∃ list slot below failed, d.effects[e]? = some ⟨list, slot⟩ ∧
    (d.lists list).progress = .running below failed ∧ slot < below

/-- An effect was pushed to a list that is not disposed. -/
def Waits (d : Disposables) (list e : Nat) : Prop :=
  ∃ slot, d.effects[e]? = some ⟨list, slot⟩ ∧ (d.lists list).progress = .idle

/-- Neither depends on more than the effects and the progress of the lists. -/
theorem Awaited.of_frame {d' : Disposables} {e : Nat} (h : d.Awaited e)
    (heffects : ∀ effect, d.effects[e]? = some effect → d'.effects[e]? = some effect)
    (hprogress : ∀ list, (d'.lists list).progress = (d.lists list).progress) : d'.Awaited e := by
  obtain ⟨list, slot, below, failed, he, hrunning, hlt⟩ := h
  exact ⟨list, slot, below, failed, heffects _ he, by rw [hprogress]; exact hrunning, hlt⟩

theorem Waits.of_frame {d' : Disposables} {list e : Nat} (h : d.Waits list e)
    (heffects : ∀ effect, d.effects[e]? = some effect → d'.effects[e]? = some effect)
    (hprogress : ∀ list, (d'.lists list).progress = (d.lists list).progress) : d'.Waits list e := by
  obtain ⟨slot, he, hidle⟩ := h
  exact ⟨slot, heffects _ he, by rw [hprogress]; exact hidle⟩

/-- `dispose_all` of a list has no disposer left to start. -/
def Drained (d : Disposables) (list : Nat) : Prop :=
  ∀ below failed, (d.lists list).progress = .running below failed → d.next list below = none

/-- A list whose unwinding has a live effect still to visit is not drained. -/
theorem Sound.not_isLive_of_drained (h : Sound d) {e list slot below : Nat} {failed : Bool}
    (he : d.effects[e]? = some ⟨list, slot⟩) (hrunning : (d.lists list).progress = .running below failed)
    (hlt : slot < below) (hdrained : d.Drained list) : d.isLive e = false := by
  by_contra hlive
  rw [Bool.not_eq_false] at hlive
  have hdone : ¬ d.isDone list := by
    rintro ⟨raised, hraised⟩
    rw [hrunning] at hraised
    cases hraised
  have hunsettled : d.settled e = false := by
    simp only [isLive, Bool.and_eq_true] at hlive
    simpa using hlive.2
  have hslot := (h.placed e list slot he hdone).2 hunsettled
  rw [next_eq_none (hdrained below failed hrunning) hlt hslot] at hlive
  cases hlive

/-- A list with nothing but settled effects ahead stays that way: the live
effects are those that are still awaited. -/
theorem Sound.awaited_resume (h : Sound d) (hall : ∀ e, d.isLive e = true → d.Awaited e) (list : Nat) (raised : Bool)
    {e : Nat} (hlive : (d.resume list raised).isLive e = true) : (d.resume list raised).Awaited e := by
  have hkeep {l slot below : Nat} {failed : Bool} (he : d.effects[e]? = some ⟨l, slot⟩)
      (hrunning : (d.lists l).progress = .running below failed) (hlt : slot < below) (hne : l ≠ list) :
      (d.resume list raised).Awaited e :=
    ⟨l, slot, below, failed, by rw [effects_resume]; exact he, by rw [lists_resume_of_ne hne]; exact hrunning, hlt⟩
  have hwas : d.isLive e = true := by
    rw [Disposables.resume] at hlive
    split at hlive
    · split at hlive
      · rw [isLive_start, isLive_setList, Bool.and_eq_true] at hlive
        exact hlive.1
      · exact hlive
    · exact hlive
  obtain ⟨l, slot, below, failed, he, hrunning, hlt⟩ := hall e hwas
  by_cases hl : l = list
  · subst hl
    have hdone : ¬ d.isDone l := by
      rintro ⟨raised, hraised⟩
      rw [hrunning] at hraised
      cases hraised
    have hunsettled : d.settled e = false := by
      simp only [isLive, Bool.and_eq_true] at hwas
      simpa using hwas.2
    have hslot := (h.placed e l slot he hdone).2 hunsettled
    cases hnext : d.next l below with
    | none =>
      rw [next_eq_none hnext hlt hslot] at hwas
      cases hwas
    | some found =>
      obtain ⟨e', slot'⟩ := found
      obtain ⟨-, hslot', -, habove⟩ := next_eq_some hnext
      have hresume : d.resume l raised
          = (d.setList l { d.lists l with progress := .running slot' (failed || raised) }).start e' true := by
        rw [Disposables.resume, hrunning]
        simp only [hnext]
      rw [hresume, isLive_start, isLive_setList, Bool.and_eq_true] at hlive
      have hne : e ≠ e' := by simpa using hlive.2
      refine ⟨l, slot, slot', failed || raised, by rw [effects_resume]; exact he, by simp [hresume], ?_⟩
      rcases Nat.lt_trichotomy slot slot' with hslots | hslots | hslots
      · exact hslots
      · subst hslots
        rw [hslot] at hslot'
        exact absurd (Option.some.inj (Option.some.inj hslot')) hne
      · rw [habove slot e hslots hlt hslot] at hwas
        cases hwas
  · exact hkeep he hrunning hlt hl

/-- The beginning of a disposal awaits what was pushed to the list. -/
theorem Sound.awaited_beginDispose (h : Sound d) {list : Nat} (hidle : (d.lists list).progress = .idle)
    (hall : ∀ e, d.isLive e = true → d.Awaited e ∨ d.Waits list e) {e : Nat}
    (hlive : (d.beginDispose list).isLive e = true) : (d.beginDispose list).Awaited e := by
  have hflag : (d.lists list).disposed = false := by simp [DisposableList.disposed, hidle]
  rw [Disposables.beginDispose, hflag] at hlive ⊢
  refine Sound.awaited_resume (h.proceed (.inl hidle)) (fun x hx => ?_) list false hlive
  rcases hall x hx with ⟨l, slot, below, failed, he, hrunning, hlt⟩ | ⟨slot, he, -⟩
  · have hne : l ≠ list := by
      rintro rfl
      rw [hidle] at hrunning
      cases hrunning
    exact ⟨l, slot, below, failed, he, by rw [lists_setList_of_ne hne]; exact hrunning, hlt⟩
  · have hdone : ¬ d.isDone list := by
      rintro ⟨raised, hraised⟩
      rw [hidle] at hraised
      cases hraised
    exact ⟨list, slot, _, false, he, by rw [lists_setList_self], (h.placed x list slot he hdone).1⟩

/-- Without live effects nothing is left. -/
theorem drained_of_not_isLive (h : ∀ e, d.isLive e = false) (list : Nat) : d.Drained list := by
  intro below failed _
  cases hnext : d.next list below with
  | none => rfl
  | some found =>
    obtain ⟨-, -, hlive, -⟩ := next_eq_some hnext
    rw [h] at hlive
    cases hlive

end Disposables

end MinionAgent
