import Mathlib.Data.List.Nodup
import Mathlib.Data.List.Perm.Subperm
import Mathlib.Data.List.Range

/-!
# MinionAgent.Library.Forest

Finite forests whose nodes are numbered, a parent before its children.

* `AtOrBelow` — a node and its descendants;
* `collect` — the nodes a stack visits that is popped until it is empty, where
  every node popped pushes its children;
* `mem_collect` — a collection visits the descendants of its root.
-/

namespace Forest

variable {parent? : Nat → Option Nat} {n : Nat}

/-- A node is the root or one of its descendants. -/
inductive AtOrBelow (parent? : Nat → Option Nat) (root : Nat) : Nat → Prop
  | refl : AtOrBelow parent? root root
  | step {d p : Nat} (hparent : parent? d = some p) (h : AtOrBelow parent? root p) : AtOrBelow parent? root d

/-- The children of a node, in order. -/
def children (parent? : Nat → Option Nat) (n p : Nat) : List Nat :=
  (List.range n).filter fun c => parent? c == some p

/-- The nodes that are popped: the last child first. -/
def collect (parent? : Nat → Option Nat) (n : Nat) : Nat → List Nat → List Nat
  | 0, _ => []
  | _ + 1, [] => []
  | fuel + 1, p :: pending => p :: collect parent? n fuel ((children parent? n p).reverse ++ pending)

/-- A parent is numbered before its children, and nodes before `n`. -/
structure Ordered (parent? : Nat → Option Nat) (n : Nat) : Prop where
  lt : ∀ {d p : Nat}, parent? d = some p → p < d
  bounded : ∀ {d p : Nat}, parent? d = some p → d < n

namespace AtOrBelow

theorem trans {a b c : Nat} (hab : AtOrBelow parent? a b) (hbc : AtOrBelow parent? b c) : AtOrBelow parent? a c := by
  induction hbc with
  | refl => exact hab
  | step hparent _ ih => exact .step hparent ih

theorem le (h : Ordered parent? n) {root d : Nat} (hd : AtOrBelow parent? root d) : root ≤ d := by
  induction hd with
  | refl => exact Nat.le_refl _
  | step hparent _ ih => exact ih.trans (h.lt hparent).le

theorem lt (h : Ordered parent? n) {root d : Nat} (hroot : root < n) (hd : AtOrBelow parent? root d) : d < n := by
  cases hd with
  | refl => exact hroot
  | step hparent _ => exact h.bounded hparent

/-- The first step down from the root. -/
theorem child {root d : Nat} (hd : AtOrBelow parent? root d) :
    d = root ∨ ∃ c, parent? c = some root ∧ AtOrBelow parent? c d := by
  induction hd with
  | refl => exact .inl rfl
  | @step d p hparent _ ih =>
    rcases ih with rfl | ⟨c, hc, hbelow⟩
    · exact .inr ⟨d, hparent, .refl⟩
    · exact .inr ⟨c, hc, .step hparent hbelow⟩

end AtOrBelow

theorem mem_children (h : Ordered parent? n) {p c : Nat} : c ∈ children parent? n p ↔ parent? c = some p := by
  rw [children, List.mem_filter, List.mem_range, beq_iff_eq]
  exact ⟨fun hc => hc.2, fun hc => ⟨h.bounded hc, hc⟩⟩

theorem nodup_children (p : Nat) : (children parent? n p).Nodup := (List.nodup_range).filter _

/-- No node of the stack is another one or below it. -/
def Apart (parent? : Nat → Option Nat) : List Nat → Prop :=
  List.Pairwise fun a b => ¬ AtOrBelow parent? a b ∧ ¬ AtOrBelow parent? b a

/-- Siblings are apart. -/
theorem not_below_of_siblings (h : Ordered parent? n) {p a b : Nat} (ha : parent? a = some p) (hb : parent? b = some p)
    (hne : a ≠ b) : ¬ AtOrBelow parent? a b := by
  intro hab
  cases hab with
  | refl => exact hne rfl
  | step hparent hap =>
    rw [hb] at hparent
    cases hparent
    have hle := hap.le h
    have hlt := h.lt ha
    omega

theorem apart_children (h : Ordered parent? n) (p : Nat) : Apart parent? (children parent? n p).reverse := by
  refine List.Pairwise.imp_of_mem ?_ (List.nodup_reverse.mpr (nodup_children p))
  intro a b ha hb hne
  rw [List.mem_reverse, mem_children h] at ha hb
  exact ⟨not_below_of_siblings h ha hb hne, not_below_of_siblings h hb ha (Ne.symm hne)⟩

/-- A child of a popped node is apart from the rest of the stack. -/
theorem Apart.push (h : Ordered parent? n) {p : Nat} {pending : List Nat} (hapart : Apart parent? (p :: pending)) :
    Apart parent? ((children parent? n p).reverse ++ pending) := by
  obtain ⟨hp, hpending⟩ := List.pairwise_cons.mp hapart
  refine List.pairwise_append.mpr ⟨apart_children h p, hpending, fun c hc q hq => ⟨fun hcq => ?_, fun hqc => ?_⟩⟩
  · rw [List.mem_reverse, mem_children h] at hc
    exact (hp q hq).1 ((AtOrBelow.step hc .refl).trans hcq)
  · rw [List.mem_reverse, mem_children h] at hc
    cases hqc with
    | refl => exact (hp c hq).1 (.step hc .refl)
    | step hparent hqp =>
      rw [hc] at hparent
      cases hparent
      exact (hp q hq).2 hqp

/-- What is visited is at or below a node of the stack. -/
theorem below_of_mem_collect (h : Ordered parent? n) {fuel d : Nat} {pending : List Nat}
    (hd : d ∈ collect parent? n fuel pending) : ∃ p ∈ pending, AtOrBelow parent? p d := by
  induction fuel generalizing pending with
  | zero => cases hd
  | succ fuel ih =>
    cases pending with
    | nil => cases hd
    | cons p pending =>
      rcases List.mem_cons.mp hd with rfl | hrest
      · exact ⟨d, List.mem_cons_self, .refl⟩
      · obtain ⟨q, hq, hqd⟩ := ih hrest
        rcases List.mem_append.mp hq with hchild | hold
        · rw [List.mem_reverse, mem_children h] at hchild
          exact ⟨p, List.mem_cons_self, (AtOrBelow.step hchild .refl).trans hqd⟩
        · exact ⟨q, List.mem_cons_of_mem _ hold, hqd⟩

/-- No node is visited twice. -/
theorem nodup_collect (h : Ordered parent? n) {fuel : Nat} {pending : List Nat} (hapart : Apart parent? pending) :
    (collect parent? n fuel pending).Nodup := by
  induction fuel generalizing pending with
  | zero => exact List.nodup_nil
  | succ fuel ih =>
    cases pending with
    | nil => exact List.nodup_nil
    | cons p pending =>
      refine List.nodup_cons.mpr ⟨fun hp => ?_, ih (hapart.push h)⟩
      obtain ⟨q, hq, hqp⟩ := below_of_mem_collect h hp
      rcases List.mem_append.mp hq with hchild | hold
      · rw [List.mem_reverse, mem_children h] at hchild
        have hle := hqp.le h
        have hlt := h.lt hchild
        omega
      · exact ((List.pairwise_cons.mp hapart).1 q hold).2 hqp

/-- A stack that is emptied before the fuel runs out visits everything. -/
theorem mem_collect_of_length_lt (h : Ordered parent? n) {fuel d p : Nat} {pending : List Nat}
    (hlength : (collect parent? n fuel pending).length < fuel) (hp : p ∈ pending) (hd : AtOrBelow parent? p d) :
    d ∈ collect parent? n fuel pending := by
  induction fuel generalizing pending p with
  | zero => cases hlength
  | succ fuel ih =>
    cases pending with
    | nil => cases hp
    | cons q pending =>
      rw [collect, List.length_cons, Nat.succ_lt_succ_iff] at hlength
      rw [collect]
      rcases List.mem_cons.mp hp with rfl | hold
      · rcases hd.child with rfl | ⟨c, hc, hcd⟩
        · exact List.mem_cons_self
        · refine List.mem_cons_of_mem _ (ih hlength ?_ hcd)
          exact List.mem_append_left _ (List.mem_reverse.mpr ((mem_children h).mpr hc))
      · exact List.mem_cons_of_mem _ (ih hlength (List.mem_append_right _ hold) hd)

/-- A collection visits its root and the descendants of it. -/
theorem mem_collect (h : Ordered parent? n) {root d : Nat} (hroot : root < n) :
    d ∈ collect parent? n (n + 1) [root] ↔ AtOrBelow parent? root d := by
  have hapart : Apart parent? [root] := List.pairwise_singleton _ _
  constructor
  · intro hd
    obtain ⟨p, hp, hpd⟩ := below_of_mem_collect h hd
    rw [List.mem_singleton] at hp
    exact hp ▸ hpd
  · refine mem_collect_of_length_lt h (Nat.lt_succ_of_le ?_) (List.mem_singleton_self root)
    have hsubset : collect parent? n (n + 1) [root] ⊆ List.range n := by
      intro d hd
      obtain ⟨p, hp, hpd⟩ := below_of_mem_collect h hd
      rw [List.mem_singleton] at hp
      exact List.mem_range.mpr (hpd.lt h (hp ▸ hroot))
    calc (collect parent? n (n + 1) [root]).length
        ≤ (List.range n).length := (List.subperm_of_subset (nodup_collect h hapart) hsubset).length_le
      _ = n := List.length_range

end Forest
