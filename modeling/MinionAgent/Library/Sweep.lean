import Mathlib.Data.Set.Finite.Basic
import Mathlib.Order.FixedPoints
import Mathlib.Order.WellFounded
import Mathlib.Order.CompletePartialOrder

/-!
# MinionAgent.Library.Sweep

Nodes that need what other nodes provide, and sweeps that go through the nodes
in order and take in every node whose needs are met by then.

* `Offers.loadable` — the least set that has a node as soon as it has what the
  node needs;
* `Offers.Chain` — a chain of needs, with the number of times it goes to a
  later node;
* `Reached.sweep`, `Within.sweep` — the nodes of `loadable` that `k` sweeps
  take in are those whose chains go to a later node fewer than `k` times.
-/

namespace Sweep

/-- Nodes, with what they need and what they provide. -/
structure Offers (ι σ : Type) where
  node : ι → Prop
  inject : ι → σ → Prop
  provides : ι → σ → Prop

namespace Offers

variable {ι σ : Type} (g : Offers ι σ)

/-- Nodes of a set provide everything the node needs. -/
def Satisfied (A : Set ι) (i : ι) : Prop := ∀ s, g.inject i s → ∃ j ∈ A, g.provides j s

/-- The nodes whose needs a set meets. -/
def next : Set ι →o Set ι where
  toFun A := {i | g.node i ∧ g.Satisfied A i}
  monotone' := fun _ _ hle _ hi => ⟨hi.1, fun s hs => (hi.2 s hs).imp fun _ hj => ⟨hle hj.1, hj.2⟩⟩

/-- The least fixpoint of `next`. -/
def loadable : Set ι := OrderHom.lfp g.next

/-- A node needs what another one provides. -/
def Needs (i j : ι) : Prop := g.node i ∧ g.node j ∧ ∃ s, g.inject i s ∧ g.provides j s

/-- No node needs itself, not even through others. -/
def Acyclic : Prop := ∀ i, ¬ Relation.TransGen g.Needs i i

/-- What a node provides, no other one does. -/
def Unique : Prop := ∀ i j s, g.node i → g.node j → g.provides i s → g.provides j s → i = j

/-- Every node of the set has its needs met in it. -/
def Supported (A : Set ι) : Prop := A ⊆ g.next A

/-- There are no more than the nodes of another one, with their needs. -/
structure Sub (g' g : Offers ι σ) : Prop where
  node : ∀ i, g'.node i → g.node i
  inject : ∀ i s, g'.node i → (g'.inject i s ↔ g.inject i s)
  provides : ∀ i s, g'.provides i s → g.provides i s

variable {g}

theorem Satisfied.mono {A B : Set ι} (h : A ⊆ B) {i : ι} (hi : g.Satisfied A i) : g.Satisfied B i :=
  fun s hs => (hi s hs).imp fun _ hj => ⟨h hj.1, hj.2⟩

theorem mem_loadable {i : ι} : i ∈ g.loadable ↔ g.node i ∧ g.Satisfied g.loadable i := by
  have hfix : g.next g.loadable = g.loadable := OrderHom.map_lfp g.next
  constructor
  · intro hi
    rw [← hfix] at hi
    exact hi
  · intro hi
    rw [← hfix]
    exact hi

theorem loadable_subset {A : Set ι} (h : ∀ i, g.node i → g.Satisfied A i → i ∈ A) : g.loadable ⊆ A :=
  OrderHom.lfp_le g.next fun i hi => h i hi.1 hi.2

/-! ## Acyclic needs -/

theorem Acyclic.wellFounded (h : g.Acyclic) (hfinite : {i | g.node i}.Finite) : WellFounded fun j i => g.Needs i j := by
  have : Finite {i | g.node i} := hfinite
  let below (j i : {i | g.node i}) : Prop := Relation.TransGen g.Needs i j
  have htrans : IsTrans _ below := ⟨fun a b c hab hbc => hbc.trans hab⟩
  have hirrefl : Std.Irrefl below := ⟨fun a => h a⟩
  have hwf : WellFounded below := Finite.wellFounded_of_trans_of_irrefl below
  have hacc (i : {i | g.node i}) : Acc (fun j i => g.Needs i j) i.1 := by
    induction i using hwf.induction with
    | h i ih => exact ⟨_, fun j hj => ih ⟨j, hj.2.1⟩ (.single hj)⟩
  refine ⟨fun i => ⟨_, fun j hj => ?_⟩⟩
  exact hacc ⟨j, hj.2.1⟩

/-- Needs that all go up have no cycle. -/
theorem acyclic_of_lt [Preorder ι] (h : ∀ i j, g.Needs i j → i < j) : g.Acyclic := by
  have htrans {i j : ι} (hij : Relation.TransGen g.Needs i j) : i < j := by
    induction hij with
    | single hneeds => exact h _ _ hneeds
    | tail _ hneeds ih => exact ih.trans (h _ _ hneeds)
  exact fun i hi => lt_irrefl i (htrans hi)

theorem Acyclic.ne (h : g.Acyclic) {i j : ι} (hneeds : g.Needs i j) : i ≠ j := by
  rintro rfl
  exact h i (.single hneeds)

/-- Without cycles, a supported set has no more than the least fixpoint. -/
theorem Supported.subset_loadable {A : Set ι} (hA : g.Supported A) (h : g.Acyclic) (hfinite : {i | g.node i}.Finite) :
    A ⊆ g.loadable := by
  intro i
  induction i using (h.wellFounded hfinite).induction with
  | h i ih =>
    intro hi
    obtain ⟨hnode, hsatisfied⟩ := hA hi
    refine mem_loadable.mpr ⟨hnode, fun s hs => ?_⟩
    obtain ⟨j, hj, hprovides⟩ := hsatisfied s hs
    exact ⟨j, ih j ⟨hnode, (hA hj).1, s, hs, hprovides⟩ hj, hprovides⟩

/-! ## Sweeps -/

section Order

variable [LinearOrder ι] (g)

/-- A chain of needs from a node, with the number of needs of a later node. -/
inductive Chain : ι → Nat → Prop
  | nil (i : ι) : Chain i 0
  | early {i j : ι} {n : Nat} (hneeds : g.Needs i j) (hlt : j < i) (h : Chain j n) : Chain i n
  | late {i j : ι} {n : Nat} (hneeds : g.Needs i j) (hlt : i < j) (h : Chain j n) : Chain i (n + 1)

/-- One sweep: every node is taken in whose needs are met by the nodes there
were and the earlier ones taken in. -/
def IsSweep (A A' : Set ι) : Prop :=
  ∀ i, i ∈ A' ↔ i ∈ A ∨ g.node i ∧ g.Satisfied {j | j < i ∧ j ∈ A' ∨ j ∈ A} i

/-- The set has the nodes of the least fixpoint whose chains go to a later node
fewer than `k` times. -/
def Reached (k : Nat) (A : Set ι) : Prop := ∀ i ∈ g.loadable, (∀ n, g.Chain i n → n < k) → i ∈ A

/-- No chain from the least fixpoint goes to a later node `k` times. -/
def Bounded (k : Nat) : Prop := ∀ i ∈ g.loadable, ∀ n, g.Chain i n → n < k

/-- The set has no other nodes. -/
def Within (k : Nat) (A : Set ι) : Prop := ∀ i ∈ A, g.node i ∧ ∀ n, g.Chain i n → n < k

variable {g} {A A' : Set ι} {k : Nat}

theorem IsSweep.subset (h : g.IsSweep A A') : A ⊆ A' := fun i hi => (h i).mpr (.inl hi)

theorem IsSweep.before_subset (h : g.IsSweep A A') (i : ι) : {j | j < i ∧ j ∈ A' ∨ j ∈ A} ⊆ A' :=
  fun _ hj => hj.elim And.right fun hj => h.subset hj

theorem Supported.sweep (hA : g.Supported A) (h : g.IsSweep A A') : g.Supported A' := by
  intro i hi
  rcases (h i).mp hi with hold | ⟨hnode, hsatisfied⟩
  · exact g.next.monotone h.subset (hA hold)
  · exact ⟨hnode, hsatisfied.mono (h.before_subset i)⟩

/-- A supported set that a sweep leaves as it is is the least fixpoint. -/
theorem Supported.eq_loadable (hA : g.Supported A) (h : g.IsSweep A A) (hacyclic : g.Acyclic)
    (hfinite : {i | g.node i}.Finite) : A = g.loadable := by
  refine Set.Subset.antisymm (hA.subset_loadable hacyclic hfinite) (loadable_subset fun i hnode hsatisfied => ?_)
  exact (h i).mpr (.inr ⟨hnode, hsatisfied.mono fun _ hj => .inr hj⟩)

theorem reached_zero (A : Set ι) : g.Reached 0 A := fun i _ hchains => absurd (hchains 0 (.nil i)) (Nat.not_lt_zero 0)

theorem within_zero : g.Within 0 ∅ := fun _ hi => hi.elim

theorem Reached.loadable_subset (hA : g.Reached k A) (hbounded : g.Bounded k) : g.loadable ⊆ A :=
  fun i hi => hA i hi (hbounded i hi)

/-- Every sweep takes in the nodes with one need of a later node more. -/
theorem Reached.sweep [WellFoundedLT ι] (hA : g.Reached k A) (h : g.IsSweep A A') (hacyclic : g.Acyclic) :
    g.Reached (k + 1) A' := by
  intro i
  induction i using (wellFounded_lt (α := ι)).induction with
  | h i ih =>
    intro hi hchains
    obtain ⟨hnode, hsatisfied⟩ := mem_loadable.mp hi
    refine (h i).mpr (.inr ⟨hnode, fun s hs => ?_⟩)
    obtain ⟨j, hj, hprovides⟩ := hsatisfied s hs
    have hneeds : g.Needs i j := ⟨hnode, (mem_loadable.mp hj).1, s, hs, hprovides⟩
    rcases lt_or_gt_of_ne (hacyclic.ne hneeds) with hlt | hgt
    · refine ⟨j, .inr (hA j hj fun n hn => ?_), hprovides⟩
      have := hchains (n + 1) (.late hneeds hlt hn)
      omega
    · exact ⟨j, .inl ⟨hgt, ih j hgt hj fun n hn => hchains n (.early hneeds hgt hn)⟩, hprovides⟩

/-- No sweep takes in more. -/
theorem Within.sweep [WellFoundedLT ι] (hA : g.Within k A) (h : g.IsSweep A A') (hunique : g.Unique) :
    g.Within (k + 1) A' := by
  have hnodes : ∀ i ∈ A', g.node i := fun i hi => ((h i).mp hi).elim (fun hi => (hA i hi).1) And.left
  intro i
  induction i using (wellFounded_lt (α := ι)).induction with
  | h i ih =>
    intro hi
    refine ⟨hnodes i hi, fun n hn => ?_⟩
    rcases (h i).mp hi with hold | ⟨hnode, hsatisfied⟩
    · exact Nat.lt_succ_of_lt ((hA i hold).2 n hn)
    · have hmeets {j : ι} (hneeds : g.Needs i j) : j < i ∧ j ∈ A' ∨ j ∈ A := by
        obtain ⟨-, hj, s, hs, hprovides⟩ := hneeds
        obtain ⟨j', hj', hprovides'⟩ := hsatisfied s hs
        rw [hunique j j' s hj (hnodes j' (h.before_subset i hj')) hprovides hprovides']
        exact hj'
      cases hn with
      | nil => exact Nat.succ_pos k
      | @early _ j _ hneeds hlt htail =>
        have hj : j ∈ A' := h.before_subset i (hmeets hneeds)
        exact (ih j hlt hj).2 n htail
      | @late _ j n hneeds hlt htail =>
        rcases hmeets hneeds with ⟨hgt, -⟩ | hj
        · exact absurd hgt (not_lt_of_gt hlt)
        · exact Nat.succ_lt_succ ((hA j hj).2 n htail)

end Order

/-! ## Fewer nodes -/

variable {g' : Offers ι σ}

theorem Sub.satisfied (h : g'.Sub g) {A : Set ι} {i : ι} (hnode : g'.node i) (hi : g'.Satisfied A i) :
    g.Satisfied A i := by
  intro s hs
  obtain ⟨j, hj, hprovides⟩ := hi s ((h.inject i s hnode).mpr hs)
  exact ⟨j, hj, h.provides j s hprovides⟩

theorem Sub.loadable_subset (h : g'.Sub g) : g'.loadable ⊆ g.loadable :=
  Offers.loadable_subset fun i hnode hi => mem_loadable.mpr ⟨h.node i hnode, h.satisfied hnode hi⟩

theorem Sub.needs (h : g'.Sub g) {i j : ι} (hneeds : g'.Needs i j) : g.Needs i j := by
  obtain ⟨hi, hj, s, hs, hprovides⟩ := hneeds
  exact ⟨h.node i hi, h.node j hj, s, (h.inject i s hi).mp hs, h.provides j s hprovides⟩

theorem Sub.acyclic (h : g'.Sub g) (hacyclic : g.Acyclic) : g'.Acyclic :=
  fun i hcycle => hacyclic i (Relation.TransGen.mono (fun _ _ => h.needs) i i hcycle)

theorem Sub.unique (h : g'.Sub g) (hunique : g.Unique) : g'.Unique :=
  fun i j s hi hj hi' hj' => hunique i j s (h.node i hi) (h.node j hj) (h.provides i s hi') (h.provides j s hj')

theorem Sub.chain [LinearOrder ι] (h : g'.Sub g) {i : ι} {n : Nat} (hn : g'.Chain i n) : g.Chain i n := by
  induction hn with
  | nil i => exact .nil i
  | early hneeds hlt _ ih => exact .early (h.needs hneeds) hlt ih
  | late hneeds hlt _ ih => exact .late (h.needs hneeds) hlt ih

theorem Sub.bounded [LinearOrder ι] (h : g'.Sub g) {k : Nat} (hbounded : g.Bounded k) : g'.Bounded k :=
  fun i hi n hn => hbounded i (h.loadable_subset hi) n (h.chain hn)

end Offers

end Sweep
