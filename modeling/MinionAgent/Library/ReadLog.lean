import Mathlib.Data.List.Nodup
import MinionAgent.Library.Program

/-!
# MinionAgent.Library.ReadLog

Programs that keep a log of the positions they read.

A program is specified by the part of the log it writes, whatever the log was
before; parts are then composed as the program is.  `Covers` says of a part that
it has every position of an interval that matters, each once and in order.

* `Appends.bind` — the rule of composition;
* `Covers.append` — adjacent intervals.
-/

namespace Program

variable {ω ε α β : Type}

/-! ## What a program writes -/

/-- The program appends to the log: what it returns, and what it wrote, are in `Q`;
what it raises is an `E`. -/
def Appends (program : Program (List ω) ε α) (Q : α → List ω → Prop) (E : ε → Prop) : Prop :=
  ∀ before, Triple (· = before) program (fun a after => ∃ written, after = before ++ written ∧ Q a written)
    fun e _ => E e

variable {program : Program (List ω) ε α} {Q : α → List ω → Prop} {E : ε → Prop}

theorem Appends.imp {Q' : α → List ω → Prop} (h : Appends program Q E) (hQ : ∀ a written, Q a written → Q' a written) :
    Appends program Q' E := by
  intro before
  refine (h before).imp fun a after hafter => ?_
  obtain ⟨written, hafter, hwritten⟩ := hafter
  exact ⟨written, hafter, hQ a written hwritten⟩

theorem Appends.pure {a : α} (h : Q a []) : Appends (pure a) Q E :=
  fun _ => Triple.pure fun _ hs => ⟨[], by simp [hs], h⟩

theorem Appends.throw {e : ε} (h : E e) : Appends (throw e : Program (List ω) ε α) Q E :=
  fun _ => Triple.throw fun _ _ => h

/-- A position is written. -/
theorem Appends.write {x : ω} {Q : PUnit → List ω → Prop} (h : Q ⟨⟩ [x]) :
    Appends (modify (· ++ [x]) : Program (List ω) ε PUnit) Q E :=
  fun _ => Triple.modify fun _ hs => ⟨[x], by simp [hs], h⟩

/-- The second part writes behind the first one. -/
theorem Appends.bind {R : β → List ω → Prop} {f : α → Program (List ω) ε β} (h : Appends program Q E)
    (hf : ∀ a written, Q a written → Appends (f a) (fun b more => R b (written ++ more)) E) :
    Appends (program >>= f) R E := by
  intro before
  refine (h before).bind fun a s hs => ?_
  obtain ⟨written, rfl, ha⟩ := hs
  refine (hf a written ha _ _ rfl).mono (fun b s hb => ?_) fun e _ he => he
  obtain ⟨more, rfl, hmore⟩ := hb
  exact ⟨written ++ more, List.append_assoc .., hmore⟩

/-- Where the first part raises, nothing follows. -/
theorem Appends.throw_bind {R : β → List ω → Prop} {e : ε} {f : α → Program (List ω) ε β} (h : E e) :
    Appends (MonadExcept.throw e >>= f) R E :=
  (Appends.throw h : Appends _ (fun _ _ => False) E).bind fun _ _ h => h.elim

theorem Appends.ite {c : Prop} [Decidable c] {other : Program (List ω) ε α} (hthen : c → Appends program Q E)
    (helse : ¬c → Appends other Q E) : Appends (if c then program else other) Q E := by
  split
  · exact hthen ‹_›
  · exact helse ‹_›

/-- How the program ends, with the log empty at first. -/
theorem Appends.ends (h : Appends program Q E) : Ends Q (fun e _ => E e) (exec program []) := by
  refine (h [] [] rfl).mono (fun a after hafter => ?_) fun e _ he => he
  obtain ⟨written, rfl, hwritten⟩ := hafter
  exact hwritten

end Program

/-! ## What the positions cover -/

/-- The positions are of the interval, in order: all that are `needed` there, and only
such as are `allowed`. -/
structure Covers (needed allowed : Nat → Prop) (start stop : Nat) (reads : List Nat) : Prop where
  le : start ≤ stop
  increasing : reads.Pairwise (· < ·)
  within : ∀ k ∈ reads, (start ≤ k ∧ k < stop) ∧ allowed k
  complete : ∀ k, start ≤ k → k < stop → needed k → k ∈ reads

namespace Covers

variable {needed allowed : Nat → Prop} {start stop : Nat} {reads : List Nat}

/-- Nothing is needed there. -/
theorem nil (hle : start ≤ stop) (hnone : ∀ k, start ≤ k → k < stop → ¬needed k) :
    Covers needed allowed start stop [] where
  le := hle
  increasing := List.Pairwise.nil
  within := by simp
  complete k hstart hstop hk := (hnone k hstart hstop hk).elim

theorem empty : Covers needed allowed start start [] := nil (Nat.le_refl start) fun _ _ _ => by omega

theorem single {k : Nat} (hk : allowed k) : Covers needed allowed k (k + 1) [k] where
  le := Nat.le_succ k
  increasing := List.pairwise_singleton ..
  within := by simpa using hk
  complete := by grind

/-- Adjacent intervals, one behind the other. -/
theorem append {middle : Nat} {more : List Nat} (h : Covers needed allowed start middle reads)
    (hmore : Covers needed allowed middle stop more) : Covers needed allowed start stop (reads ++ more) where
  le := Nat.le_trans h.le hmore.le
  increasing := List.pairwise_append.mpr ⟨h.increasing, hmore.increasing, fun a ha b hb =>
    Nat.lt_of_lt_of_le (h.within a ha).1.2 (hmore.within b hb).1.1⟩
  within k hk := by grind [h.within k, hmore.within k, h.le, hmore.le]
  complete k hstart hstop hk := by
    by_cases hkm : k < middle
    · exact List.mem_append_left _ (h.complete k hstart hkm hk)
    · exact List.mem_append_right _ (hmore.complete k (by omega) hstop hk)

/-- Up to a point behind which nothing is allowed. -/
theorem trim {last : Nat} (h : Covers needed allowed start stop reads) (hle : start ≤ last) (hstop : last ≤ stop)
    (hnone : ∀ k, last ≤ k → k < stop → ¬allowed k) : Covers needed allowed start last reads where
  le := hle
  increasing := h.increasing
  within k hk := by grind [h.within k hk, hnone k]
  complete k hstart hlast := h.complete k hstart (Nat.lt_of_lt_of_le hlast hstop)

/-- What is needed is read once. -/
theorem count_eq_one {k : Nat} (h : Covers needed allowed start stop reads) (hstart : start ≤ k) (hstop : k < stop)
    (hk : needed k) : reads.count k = 1 :=
  List.count_eq_one_of_mem (h.increasing.imp fun hlt => Nat.ne_of_lt hlt) (h.complete k hstart hstop hk)

end Covers
