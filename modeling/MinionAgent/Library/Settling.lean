import Mathlib.Data.List.Basic

/-!
# MinionAgent.Library.Settling

Streams that are pulled, and wrappers that settle them: one terminal, last,
whatever the source does.

* `Settled` — what a settled source yields, by its chunks alone;
* `settle` — the same as a recursion, `settled_settle`;
* `SettlesOnce` — pulls that yield that, and nothing behind it;
* `SettlesOnce.yielded`, `SettlesOnce.pending` — the rules of a pull.
-/

namespace Settling

variable {C P : Type}

/-- What a pull of a stream gives. -/
inductive Answer (C : Type)
  | pending
  | yielded (chunk : C)
  | stopped
  | escaped
deriving DecidableEq

def Answer.chunk? : Answer C → Option C
  | yielded chunk => some chunk
  | _ => none

/-- The i-th answer of a machine. -/
def answer {S : Type} (pull : S → Answer C × S) : S → Nat → Answer C
  | s, 0 => (pull s).1
  | s, i + 1 => answer pull (pull s).2 i

/-- A machine that is done stays done. -/
theorem answer_done {S : Type} {pull : S → Answer C × S} {s : S} (h : pull s = (.stopped, s)) (i : Nat) :
    answer pull s i = .stopped := by
  induction i with
  | zero => rw [answer, h]
  | succ i ih => rw [answer, h, ih]

/-! ## What is yielded -/

/-- The chunks up to the first terminal, which is filled in, or all of them and
the terminal of a failure, made from what the last one carries. -/
def Settled (terminal : C → Bool) (fill : C → C) (soFar : C → P) (failure : Option P → C) (chunks out : List C) :
    Prop :=
  (∃ before t after, chunks = before ++ t :: after ∧ (∀ c ∈ before, terminal c = false) ∧ terminal t = true ∧
    out = before ++ [fill t]) ∨
  (∀ c ∈ chunks, terminal c = false) ∧ out = chunks ++ [failure (chunks.getLast?.map soFar)]

/-- The same, chunk by chunk. -/
def settle (terminal : C → Bool) (fill : C → C) (soFar : C → P) (failure : Option P → C) : Option P → List C → List C
  | p, [] => [failure p]
  | _, c :: cs => if terminal c then [fill c] else c :: settle terminal fill soFar failure (some (soFar c)) cs

variable {terminal : C → Bool} {fill : C → C} {soFar : C → P} {failure : Option P → C}

theorem settled_settle_or (p : Option P) (chunks : List C) :
    Settled terminal fill soFar (fun last => failure (last.or p)) chunks
      (settle terminal fill soFar failure p chunks) := by
  induction chunks generalizing p with
  | nil => exact .inr ⟨by simp, rfl⟩
  | cons c cs ih =>
    rw [settle]
    cases hc : terminal c with
    | true => exact .inl ⟨[], c, cs, rfl, by simp, hc, rfl⟩
    | false =>
      obtain ⟨before, t, after, rfl, hbefore, ht, hout⟩ | ⟨hcs, hout⟩ := ih (some (soFar c))
      · refine .inl ⟨c :: before, t, after, rfl, List.forall_mem_cons.mpr ⟨hc, hbefore⟩, ht, ?_⟩
        rw [hout]
        rfl
      · refine .inr ⟨List.forall_mem_cons.mpr ⟨hc, hcs⟩, ?_⟩
        rw [hout, List.getLast?_cons]
        cases cs.getLast? <;> rfl

theorem settled_settle (chunks : List C) :
    Settled terminal fill soFar failure chunks (settle terminal fill soFar failure none chunks) := by
  have h := @settled_settle_or C P terminal fill soFar failure none chunks
  simpa only [Option.or_none] using h

/-! ## Pulls -/

/-- Pulls yield a list, with pending ones in between, and are stopped behind
it; its last chunk is a terminal, the only one. -/
def SettlesOnce (terminal : C → Bool) (out : List C) (answers : Nat → Answer C) : Prop :=
  ∃ before t, (∀ i, answers i = ((before ++ [.yielded t])[i]?).getD .stopped) ∧
    out = before.filterMap Answer.chunk? ++ [t] ∧ terminal t = true ∧
    ∀ a ∈ before, a = .pending ∨ ∃ c, a = .yielded c ∧ terminal c = false

/-- A terminal, and the machine is done. -/
theorem SettlesOnce.last {S : Type} {pull : S → Answer C × S} {s s' : S} {t : C} (hpull : pull s = (.yielded t, s'))
    (hdone : pull s' = (.stopped, s')) (ht : terminal t = true) : SettlesOnce terminal [t] (answer pull s) := by
  refine ⟨[], t, fun i => ?_, rfl, ht, by simp⟩
  cases i with
  | zero => rw [answer, hpull]; rfl
  | succ i => rw [answer, hpull, answer_done hdone]; rfl

/-- A chunk that is no terminal. -/
theorem SettlesOnce.yielded {S : Type} {pull : S → Answer C × S} {s s' : S} {c : C} {out : List C}
    (hpull : pull s = (.yielded c, s')) (hc : terminal c = false) (h : SettlesOnce terminal out (answer pull s')) :
    SettlesOnce terminal (c :: out) (answer pull s) := by
  obtain ⟨before, t, hanswers, rfl, ht, hbefore⟩ := h
  refine ⟨.yielded c :: before, t, fun i => ?_, rfl, ht, ?_⟩
  · cases i with
    | zero => rw [answer, hpull]; rfl
    | succ i => rw [answer, hpull, hanswers]; rfl
  · exact List.forall_mem_cons.mpr ⟨.inr ⟨c, rfl, hc⟩, hbefore⟩

/-- A pull that gives nothing yet. -/
theorem SettlesOnce.pending {S : Type} {pull : S → Answer C × S} {s s' : S} {out : List C}
    (hpull : pull s = (.pending, s')) (h : SettlesOnce terminal out (answer pull s')) :
    SettlesOnce terminal out (answer pull s) := by
  obtain ⟨before, t, hanswers, rfl, ht, hbefore⟩ := h
  refine ⟨.pending :: before, t, fun i => ?_, rfl, ht, ?_⟩
  · cases i with
    | zero => rw [answer, hpull]; rfl
    | succ i => rw [answer, hpull, hanswers]; rfl
  · exact List.forall_mem_cons.mpr ⟨.inl rfl, hbefore⟩

end Settling
