import MinionAgent.Runtime.RustScopeStep

/-!
# MinionAgent.Runtime.RustScopeTree

The shape of the Rust scope tree, which every step keeps.

* `ScopeTree.Tree` — parents come before their children, and nothing is active
  below an inactive scope;
* `ScopeTree.Stepped.tree` — the step lemma.
-/

namespace MinionAgent.Rust

namespace ScopeTree

open Table

variable {s x : ScopeTree}

/-- Parents come before their children, and no scope is active below an
inactive one. -/
structure Tree (s : ScopeTree) : Prop where
  ordered : Forest.Ordered s.parent? s.scopes.length
  depth : ∀ d p, s.parent? d = some p → s.depth d = s.depth p + 1
  down : ∀ d p, s.parent? d = some p → s.isActive p = false → s.isActive d = false
  closed : ∀ d, s.isActive d = false → s.isAccepting d = false
  slots : ∀ (i : Nat) (slot : ScopeSlot), s.slots[i]? = some slot → slot.scope < s.scopes.length

theorem tree_initial : Tree {} where
  ordered := ⟨by simp [parent?], by simp [parent?]⟩
  depth := by simp [parent?]
  down := by simp [parent?]
  closed := by simp [isAccepting]
  slots := by simp

theorem mem_collectSubtree (h : Tree s) {root d : Nat} (hroot : root < s.scopes.length) :
    d ∈ s.collectSubtree root ↔ s.AtOrBelow root d := Forest.mem_collect h.ordered hroot

/-- Below an inactive scope there is none that is active. -/
theorem Tree.inactive_below (h : Tree s) {r d : Nat} (hr : s.isActive r = false) (hd : s.AtOrBelow r d) :
    s.isActive d = false := by
  induction hd with
  | refl => exact hr
  | step hparent _ ih => exact h.down _ _ hparent ih

/-- A step that creates no scope, and makes inactive what is below what it
makes inactive. -/
theorem Tree.grows (h : Tree s) (hgrows : Grows s x) (hlength : x.scopes.length = s.scopes.length)
    (hdown : ∀ d p, s.parent? d = some p → x.isActive p = false → x.isActive d = false)
    (hclosed : ∀ d, s.isActive d = true → x.isActive d = false → x.isAccepting d = false) : Tree x where
  ordered := by
    constructor
    · intro d p hparent
      rw [hgrows.parent? (hlength ▸ lt_of_parent? hparent)] at hparent
      exact h.ordered.lt hparent
    · exact fun hparent => lt_of_parent? hparent
  depth := by
    intro d p hparent
    have hd := hlength ▸ lt_of_parent? hparent
    rw [hgrows.parent? hd] at hparent
    rw [hgrows.depth hd, hgrows.depth ((h.ordered.lt hparent).trans hd)]
    exact h.depth d p hparent
  down := by
    intro d p hparent
    rw [hgrows.parent? (hlength ▸ lt_of_parent? hparent)] at hparent
    exact hdown d p hparent
  closed := by
    intro d hinactive
    by_cases hd : d < s.scopes.length
    · cases hactive : s.isActive d with
      | true => exact hclosed d hactive hinactive
      | false => exact hgrows.isAccepting hd (h.closed d hactive)
    · exact isAccepting_of_ge (by omega)
  slots := by
    intro i slot hslot
    rw [hlength]
    rcases hgrows.slots i slot hslot with ⟨old, hold, hstep⟩ | haccepting
    · exact hstep.scope ▸ h.slots i old hold
    · by_contra hge
      rw [isAccepting_of_ge (by omega)] at haccepting
      cases haccepting

/-- A quiet step. -/
theorem Tree.of_quiet (h : Tree s) (hgrows : Grows s x) (hquiet : Quiet s x) : Tree x := by
  refine h.grows hgrows hquiet.length (fun d p hparent hp => ?_) fun d htrue hfalse => ?_
  · rw [hquiet.active] at hp ⊢
    exact h.down d p hparent hp
  · rw [hquiet.active, htrue] at hfalse
    cases hfalse

/-! ## Disposals that begin -/

theorem isActive_begun {root d : Nat} :
    (s.begun root).isActive d = (s.isActive d && !decide (d ∈ s.collectSubtree root)) := by
  simp only [isActive, getElem?_begun]
  cases s.scopes[d]? with
  | none => rfl
  | some node => grind

theorem isAccepting_begun {root d : Nat} (hd : d ∈ s.collectSubtree root) :
    (s.begun root).isAccepting d = false := by
  simp only [isAccepting, getElem?_begun]
  cases s.scopes[d]? with
  | none => rfl
  | some node => grind

theorem length_begun (s : ScopeTree) (root : Nat) :
    (s.begun root).scopes.length = s.scopes.length := by
  simp [begun, called, beginDisposal]

theorem Tree.begun (h : Tree s) {root : Nat} (hroot : root < s.scopes.length) : Tree (s.begun root) := by
  refine h.grows (Stepped.begun root hroot).grows (length_begun s root) (fun d p hparent hp => ?_)
    fun d hactive hinactive => ?_
  · rw [isActive_begun] at hp ⊢
    simp only [Bool.and_eq_false_iff, Bool.not_eq_false', decide_eq_true_eq, mem_collectSubtree h hroot] at hp ⊢
    exact hp.imp (h.down d p hparent) (.step hparent)
  · refine isAccepting_begun ?_
    rw [isActive_begun, hactive] at hinactive
    simpa using hinactive

/-! ## Scopes that are created -/

theorem parent?_createScope (s : ScopeTree) (parent : Option Nat) (depth d : Nat) :
    (s.createScope parent depth).parent? d = if d = s.scopes.length then parent else s.parent? d := by
  simp only [ScopeTree.parent?, createScope, List.getElem?_append]
  grind

theorem depth_createScope (s : ScopeTree) (parent : Option Nat) (depth d : Nat) :
    (s.createScope parent depth).depth d = if d = s.scopes.length then depth else s.depth d := by
  simp only [ScopeTree.depth, createScope, List.getElem?_append]
  grind

theorem isActive_createScope (s : ScopeTree) (parent : Option Nat) (depth d : Nat) :
    (s.createScope parent depth).isActive d = if d = s.scopes.length then true else s.isActive d := by
  simp only [isActive, createScope, List.getElem?_append]
  grind

theorem isAccepting_createScope (s : ScopeTree) (parent : Option Nat) (depth d : Nat) :
    (s.createScope parent depth).isAccepting d = if d = s.scopes.length then true else s.isAccepting d := by
  simp only [isAccepting, createScope, List.getElem?_append]
  grind

/-- A scope is created below an active one. -/
theorem Tree.createScope (h : Tree s) {parent : Option Nat} {depth : Nat}
    (hparent : ∀ p, parent = some p → p < s.scopes.length ∧ s.isActive p = true ∧ depth = s.depth p + 1) :
    Tree (s.createScope parent depth) := by
  have hold {d p : Nat} (h : (s.createScope parent depth).parent? d = some p) :
      d = s.scopes.length ∧ parent = some p ∨ d ≠ s.scopes.length ∧ s.parent? d = some p := by
    rw [parent?_createScope] at h
    by_cases heq : d = s.scopes.length
    · exact .inl ⟨heq, by simpa [heq] using h⟩
    · exact .inr ⟨heq, by simpa [heq] using h⟩
  refine ⟨⟨fun {d p} hd => ?_, fun hd => lt_of_parent? hd⟩, fun d p hd => ?_, fun d p hd hp => ?_, fun d hd => ?_,
    fun i slot hslot => ?_⟩
  · rcases hold hd with ⟨rfl, hp⟩ | ⟨-, hp⟩
    · exact (hparent p hp).1
    · exact h.ordered.lt hp
  · rw [depth_createScope, depth_createScope]
    rcases hold hd with ⟨rfl, hp⟩ | ⟨hne, hp⟩
    · rw [if_pos rfl, if_neg (hparent p hp).1.ne]
      exact (hparent p hp).2.2
    · rw [if_neg hne, if_neg (show p ≠ s.scopes.length by have := h.ordered.lt hp; have := lt_of_parent? hp; omega)]
      exact h.depth d p hp
  · rw [isActive_createScope] at hp ⊢
    rcases hold hd with ⟨rfl, hparent'⟩ | ⟨hne, hparent'⟩
    · rw [if_neg (hparent p hparent').1.ne, (hparent p hparent').2.1] at hp
      cases hp
    · have hbelow := h.ordered.lt hparent'
      have hminted := lt_of_parent? hparent'
      rw [if_neg (show p ≠ s.scopes.length by omega)] at hp
      rw [if_neg hne]
      exact h.down d p hparent' hp
  · rw [isActive_createScope] at hd
    rw [isAccepting_createScope]
    split at hd
    · cases hd
    · next hne =>
      rw [if_neg hne]
      exact h.closed d hd
  · rw [ScopeTree.createScope, List.length_append]
    exact (h.slots i slot hslot).trans (Nat.lt_succ_self _)

theorem Stepped.tree (hstep : Stepped s x) (h : Tree s) : Tree x := by
  rcases hstep.quiet with ⟨parent, depth, rfl, hparent⟩ | ⟨root, hroot, rfl⟩ | hquiet
  · exact h.createScope hparent
  · exact h.begun hroot
  · exact h.of_quiet hstep.grows hquiet

end ScopeTree

end MinionAgent.Rust
