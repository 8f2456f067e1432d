import Mathlib.Data.List.Infix
import Mathlib.Order.Basic
import MinionAgent.Runtime.Disposable

/-!
# MinionAgent.Runtime.ScopeTree

Scopes (`runtime/scope.py`, `Context.scope` in `runtime/context.py`): every
scope minted in one context tree, with the effects registered through it, and
their disposal one after another, of which any disposer may raise.

* `Disposables.disposeAll` — `dispose_all` from its call to its return;
* `ScopeTree.dispose` — `Scope.dispose`, with fuel for the nesting;
* `ScopeTree.Sound` — what a table of scopes keeps.
-/

namespace MinionAgent

/-! ## `dispose_all` to its end -/

/-- Whether `dispose_all` ended with the group of errors. -/
def Progress.raised : Progress → Bool
  | .done raised => raised
  | _ => false

namespace Disposables

/-- The loop of `dispose_all`: it goes on after every disposer.  `raised` is
for the disposer before. -/
def driveList (raises : Nat → Bool) (list : Nat) : Nat → Disposables → Bool → Disposables
  | 0, d, _ => d
  | fuel + 1, d, raised =>
    match ((d.resume list raised).lists list).progress with
    | .running _ _ =>
      driveList raises list fuel (d.resume list raised)
        ((d.resume list raised).started.getLast?.any fun started => raises started.1)
    | _ => d.resume list raised

/-- `dispose_all`, and whether it raises the group of errors. -/
def disposeAll (raises : Nat → Bool) (d : Disposables) (list : Nat) : Disposables × Bool :=
  if (d.lists list).disposed then
    (d, false)
  else
    let d' := driveList raises list ((d.lists list).disposers.length + 1)
      (d.setList list { d.lists list with progress := .running (d.lists list).disposers.length false }) false
    (d', (d'.lists list).progress.raised)

/-- The live effects in the slots of a list below some slot, from the highest
slot down. -/
def liveBelow (d : Disposables) (list : Nat) : Nat → List Nat
  | 0 => []
  | slot + 1 =>
    match (d.lists list).disposers[slot]? with
    | some (some e) => if d.isLive e then e :: d.liveBelow list slot else d.liveBelow list slot
    | _ => d.liveBelow list slot

/-- The live effects of a list, the newest first. -/
def liveOf (d : Disposables) (list : Nat) : List Nat := d.liveBelow list (d.lists list).disposers.length

variable {d : Disposables}

theorem liveBelow_eq_of_next_none {list below : Nat} (h : d.next list below = none) : d.liveBelow list below = [] := by
  induction below with
  | zero => rfl
  | succ slot ih =>
    rw [next] at h
    rw [liveBelow]
    cases hslot : (d.lists list).disposers[slot]? with
    | none => exact ih (by simpa [hslot] using h)
    | some held =>
      cases held with
      | none => exact ih (by simpa [hslot] using h)
      | some e =>
        cases hlive : d.isLive e with
        | true => simp [hslot, hlive] at h
        | false => simpa [hlive] using ih (by simpa [hslot, hlive] using h)

theorem liveBelow_eq_of_next_some {list below e slot : Nat} (h : d.next list below = some (e, slot)) :
    d.liveBelow list below = e :: d.liveBelow list slot := by
  induction below with
  | zero => cases h
  | succ below ih =>
    rw [next] at h
    rw [liveBelow]
    cases hslot : (d.lists list).disposers[below]? with
    | none => exact ih (by simpa [hslot] using h)
    | some held =>
      cases held with
      | none => exact ih (by simpa [hslot] using h)
      | some e' =>
        cases hlive : d.isLive e' with
        | true =>
          simp only [hslot, hlive, if_true, Option.some.injEq, Prod.mk.injEq] at h
          obtain ⟨rfl, rfl⟩ := h
          simp [hlive]
        | false => simpa [hlive] using ih (by simpa [hslot, hlive] using h)

theorem mem_liveBelow {list below e : Nat} :
    e ∈ d.liveBelow list below ↔ d.isLive e = true ∧ ∃ slot < below,
      (d.lists list).disposers[slot]? = some (some e) := by
  induction below with
  | zero => simp [liveBelow]
  | succ below ih =>
    have hsplit : (∃ slot < below + 1, (d.lists list).disposers[slot]? = some (some e)) ↔
        (d.lists list).disposers[below]? = some (some e) ∨
          ∃ slot < below, (d.lists list).disposers[slot]? = some (some e) := by
      simp only [Nat.lt_succ_iff_lt_or_eq]
      grind
    rw [hsplit, liveBelow]
    split
    · next e' he' =>
      rw [he']
      split
      · rw [List.mem_cons, ih]
        grind
      · rw [ih]
        grind
    · next hempty =>
      rw [ih]
      have hne := hempty e
      grind

theorem Sound.mem_liveOf (h : d.Sound) {list e : Nat} (hdone : ¬ d.isDone list) :
    e ∈ d.liveOf list ↔ d.isLive e = true ∧ ∃ slot, d.effects[e]? = some ⟨list, slot⟩ := by
  rw [liveOf, mem_liveBelow]
  constructor
  · rintro ⟨hlive, slot, -, hslot⟩
    exact ⟨hlive, slot, h.holds list slot e hslot⟩
  · rintro ⟨hlive, slot, he⟩
    obtain ⟨hlt, hslot⟩ := h.placed e list slot he hdone
    have hunsettled : d.settled e = false := by
      simp only [isLive, Bool.and_eq_true] at hlive
      simpa using hlive.2
    exact ⟨hlive, slot, hlt, hslot hunsettled⟩

/-- What is live below a slot depends on those slots and their effects. -/
theorem liveBelow_congr {d' : Disposables} {list below : Nat}
    (hslots : (d'.lists list).disposers = (d.lists list).disposers)
    (hlive : ∀ slot e, slot < below → (d.lists list).disposers[slot]? = some (some e) → d'.isLive e = d.isLive e) :
    d'.liveBelow list below = d.liveBelow list below := by
  induction below with
  | zero => rfl
  | succ below ih =>
    have ih := ih fun slot e hlt => hlive slot e (Nat.lt_succ_of_lt hlt)
    rw [liveBelow, liveBelow, hslots, ih]
    split
    · next e he => rw [hlive below e (Nat.lt_succ_self _) he]
    · rfl

/-- The loop of `dispose_all` starts the live effects that are left, from the
highest slot down, and raises when one of them does or one did before. -/
theorem Sound.driveList (raises : Nat → Bool) {list fuel below : Nat} {failed : Bool} (raised : Bool) (h : d.Sound)
    (hrunning : (d.lists list).progress = .running below failed) (hfuel : below < fuel) :
    (driveList raises list fuel d raised).Sound ∧
      (driveList raises list fuel d raised).effects = d.effects ∧
      (driveList raises list fuel d raised).count = d.count ∧
      (∀ l, l ≠ list → (driveList raises list fuel d raised).lists l = d.lists l) ∧
      ((driveList raises list fuel d raised).lists list).progress
        = .done (failed || raised || (d.liveBelow list below).any raises) ∧
      (driveList raises list fuel d raised).started = d.started ++ (d.liveBelow list below).map fun e => (e, true) := by
  induction fuel generalizing d below failed raised with
  | zero => omega
  | succ fuel ih =>
    rw [Disposables.driveList]
    cases hnext : d.next list below with
    | none =>
      have hresume : d.resume list raised =
          d.setList list { disposers := [], progress := .done (failed || raised) } := by
        rw [Disposables.resume, hrunning]
        simp only [hnext]
      have hprogress : ((d.resume list raised).lists list).progress = .done (failed || raised) := by
        rw [hresume, lists_setList_self]
      rw [hprogress, liveBelow_eq_of_next_none hnext]
      refine ⟨h.resume list raised, effects_resume list raised, count_resume list raised,
        fun l hl => lists_resume_of_ne hl raised, ?_, ?_⟩
      · simpa using hprogress
      · simp [hresume, setList]
    | some found =>
      obtain ⟨e, slot⟩ := found
      obtain ⟨hlt, hslot, -, -⟩ := next_eq_some hnext
      have hresume : d.resume list raised
          = (d.setList list { d.lists list with progress := .running slot (failed || raised) }).start e true := by
        rw [Disposables.resume, hrunning]
        simp only [hnext]
      have hprogress : ((d.resume list raised).lists list).progress = .running slot (failed || raised) := by
        rw [hresume, lists_start, lists_setList_self]
      have hlast : (d.resume list raised).started = d.started ++ [(e, true)] := by
        rw [hresume]
        rfl
      have hsame : (d.resume list raised).liveBelow list slot = d.liveBelow list slot := by
        refine liveBelow_congr (by rw [hresume, lists_start, lists_setList_self]) fun i x hi hx => ?_
        rw [hresume, isLive_start, isLive_setList]
        have hne : x ≠ e := by
          rintro rfl
          have heq := (h.holds list i x hx).symm.trans (h.holds list slot x hslot)
          cases heq
          exact Nat.lt_irrefl _ hi
        simp [hne]
      rw [hprogress]
      obtain ⟨hsound, heffects, hcount, hother, hdone, hstarted⟩ := ih (raises e)
        (h.resume list raised) hprogress (by omega)
      have hany : ((d.resume list raised).started.getLast?.any fun started => raises started.1) = raises e := by
        simp [hlast]
      rw [hany, liveBelow_eq_of_next_some hnext]
      refine ⟨hsound, heffects.trans (effects_resume list raised), hcount.trans (count_resume list raised),
        fun l hl => (hother l hl).trans (lists_resume_of_ne hl raised), ?_, ?_⟩
      · rw [hdone, hsame]
        simp [Bool.or_assoc]
      · rw [hstarted, hsame, hlast]
        simp

/-- `dispose_all` of a list on which it was not called before. -/
structure Disposed (raises : Nat → Bool) (d : Disposables) (list : Nat) (d' : Disposables) : Prop where
  sound : d'.Sound
  effects : d'.effects = d.effects
  count : d'.count = d.count
  other : ∀ l, l ≠ list → d'.lists l = d.lists l
  progress : (d'.lists list).progress = .done ((d.liveOf list).any raises)
  started : d'.started = d.started ++ (d.liveOf list).map fun e => (e, true)

theorem Sound.disposeAll (h : d.Sound) (raises : Nat → Bool) {list : Nat} (hidle : (d.lists list).progress = .idle) :
    Disposed raises d list (disposeAll raises d list).1 ∧
      (disposeAll raises d list).2 = (d.liveOf list).any raises := by
  have hflag : (d.lists list).disposed = false := by simp [DisposableList.disposed, hidle]
  set l' : DisposableList := { d.lists list with progress := .running (d.lists list).disposers.length false } with hl'
  have hsame : (d.setList list l').liveBelow list (d.lists list).disposers.length = d.liveOf list :=
    liveBelow_congr (by rw [lists_setList_self]) fun _ _ _ _ => rfl
  obtain ⟨hsound, heffects, hcount, hother, hprogress, hstarted⟩ := Sound.driveList raises false
    (h.proceed (.inl hidle)) (by rw [lists_setList_self]) (Nat.lt_succ_self (d.lists list).disposers.length)
  rw [← hl'] at hsound heffects hcount hother hprogress hstarted
  rw [hsame] at hprogress hstarted
  rw [Disposables.disposeAll, hflag]
  refine ⟨⟨hsound, heffects, hcount, fun l hl => ?_, hprogress, hstarted⟩, ?_⟩
  · exact (hother l hl).trans (lists_setList_of_ne hl l')
  · show Progress.raised _ = _
    rw [hprogress]
    simp [Progress.raised]

end Disposables

/-! ## Keys -/

/-- `ScopeKey`: its name, and those of its parent, its parent's parent and so
on. -/
structure ScopeKey where
  name : String
  ancestors : List String := []
deriving DecidableEq

namespace ScopeKey

/-- `parent`. -/
def parent? (key : ScopeKey) : Option ScopeKey :=
  match key.ancestors with
  | [] => none
  | name :: ancestors => some { name, ancestors }

/-- The names of a key and of its ancestors. -/
def path (key : ScopeKey) : List String := key.name :: key.ancestors

/-- A key has another one among its ancestors. -/
def Below (key ancestor : ScopeKey) : Prop := ancestor.path <:+ key.ancestors

theorem path_injective : Function.Injective path := by
  rintro ⟨name, ancestors⟩ ⟨name', ancestors'⟩ h
  simp only [path, List.cons.injEq] at h
  rw [h.1, h.2]

theorem parent?_eq_some {key parent : ScopeKey} : key.parent? = some parent ↔ key.ancestors = parent.path := by
  rw [parent?]
  cases hancestors : key.ancestors with
  | nil => simp [path]
  | cons name ancestors =>
    constructor
    · intro h
      cases h
      rfl
    · intro h
      simp only [path, List.cons.injEq] at h
      rw [h.1, h.2]

theorem below_of_parent? {key parent : ScopeKey} (h : key.parent? = some parent) : key.Below parent := by
  rw [Below, parent?_eq_some.mp h]

theorem Below.trans {k₁ k₂ k₃ : ScopeKey} (h : k₁.Below k₂) (h' : k₂.Below k₃) : k₁.Below k₃ :=
  List.IsSuffix.trans h' ((List.suffix_cons _ _).trans h)

theorem Below.suffix {key ancestor : ScopeKey} (h : key.Below ancestor) : ancestor.path <:+ key.path :=
  List.IsSuffix.trans h (List.suffix_cons _ _)

/-- What is at a key or below it is below that key's ancestors. -/
theorem Below.of_suffix {key ancestor descendant : ScopeKey} (h : key.Below ancestor)
    (hsuffix : key.path <:+ descendant.path) : descendant.Below ancestor := by
  rcases List.suffix_cons_iff.mp hsuffix with heq | hbelow
  · rw [path_injective heq] at h
    exact h
  · have hkey : descendant.Below key := hbelow
    exact hkey.trans h

theorem not_below_self (key : ScopeKey) : ¬ key.Below key := by
  intro h
  have hle := h.length_le
  rw [path, List.length_cons] at hle
  omega

/-- Two keys of one depth with a key below or at both are the same. -/
theorem eq_of_path_suffix {k₁ k₂ : ScopeKey} {names : List String} (h₁ : k₁.path <:+ names) (h₂ : k₂.path <:+ names)
    (hlength : k₁.path.length = k₂.path.length) : k₁ = k₂ :=
  path_injective ((List.suffix_of_suffix_length_le h₁ h₂ (Nat.le_of_eq hlength)).eq_of_length hlength)

end ScopeKey

/-! ## The table of scopes -/

/-- `Scope`, but for its list, which has the scope's number. -/
structure MintedScope where
  key : ScopeKey
  disposed : Bool := false
deriving DecidableEq

/-- The scopes of one context tree in the order they were minted, `_scopes` of
its `ScopeTree`, and the list of every scope. -/
structure ScopeTree where
  minted : List MintedScope := []
  table : List (ScopeKey × Nat) := []
  disposables : Disposables := { count := 0 }

namespace ScopeTree

/-- `self._scopes[scope.key] = scope`: a key that is there keeps its place. -/
def setEntry : List (ScopeKey × Nat) → ScopeKey → Nat → List (ScopeKey × Nat)
  | [], key, s => [(key, s)]
  | entry :: rest, key, s => if entry.1 = key then (key, s) :: rest else entry :: setEntry rest key s

/-- `Context.scope`. -/
def mint (t : ScopeTree) (key : ScopeKey) : ScopeTree where
  minted := t.minted ++ [{ key }]
  table := setEntry t.table key t.minted.length
  disposables := t.disposables.fresh

/-- `disposed` of a scope. -/
def isDisposed (t : ScopeTree) (s : Nat) : Bool := (t.minted[s]?).elim true MintedScope.disposed

/-- `children_of`. -/
def childrenOf (t : ScopeTree) (key : ScopeKey) : List Nat :=
  (t.table.filter fun entry => entry.1.parent? == some key && !t.isDisposed entry.2).map Prod.snd

/-- `self._disposed = True`. -/
def mark (t : ScopeTree) (s : Nat) : ScopeTree :=
  { t with minted := t.minted.modify s fun scope => { scope with disposed := true } }

/-- `dispose_all` of a scope's list, and whether it raises. -/
def disposeOwn (raises : Nat → Bool) (t : ScopeTree) (s : Nat) : ScopeTree × Bool :=
  ({ t with disposables := (t.disposables.disposeAll raises s).1 }, (t.disposables.disposeAll raises s).2)

/-- `dispose` of one scope after another, until one raises. -/
def disposeEach (disposeOne : ScopeTree → Nat → Option (ScopeTree × Bool)) :
    ScopeTree → List Nat → Option (ScopeTree × Bool)
  | t, [] => some (t, false)
  | t, s :: rest =>
    match disposeOne t s with
    | some (t', false) => disposeEach disposeOne t' rest
    | some (t', true) => some (t', true)
    | none => none

/-- `Scope.dispose`, and whether it raises; `none` without fuel. -/
def dispose (raises : Nat → Bool) : Nat → ScopeTree → Nat → Option (ScopeTree × Bool)
  | 0, _, _ => none
  | fuel + 1, t, s =>
    match t.minted[s]? with
    | none => some (t, false)
    | some scope =>
      if scope.disposed then
        some (t, false)
      else
        match disposeEach (dispose raises fuel) (t.mark s) ((t.mark s).childrenOf scope.key).reverse with
        | some (t', false) => some (t'.disposeOwn raises s)
        | some (t', true) => some (t', true)
        | none => none

/-- `_scoped_effect`, which a disposed list refuses. -/
def effect (t : ScopeTree) (s : Nat) : ScopeTree :=
  if s < t.minted.length ∧ ¬ (t.disposables.lists s).disposed then
    { t with disposables := t.disposables.push s }
  else
    t

/-- The handle of an effect. -/
def handle (t : ScopeTree) (e : Nat) : ScopeTree :=
  { t with disposables := (t.disposables.handle? e).getD t.disposables }

end ScopeTree

end MinionAgent
