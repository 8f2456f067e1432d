import Mathlib.Data.List.Basic
import Mathlib.Data.List.Infix

/-!
# MinionAgent.Library.BranchLog

Trees of append-only logs.  A log may branch off another one at a boundary;
it then refers to its parent instead of copying it, and a reader of the log
goes on into the parent's events up to that boundary.

* `Forest` — logs whose parents are older and long enough at every boundary;
* `Forest.append`, `Forest.branch` — the two ways a forest grows;
* `Forest.amend` — an event changed in place, and when no view shows it;
* `Extends` — one forest is a later state of another;
* `Forest.view` — a reading along the ancestry;
* `view_of_extends` — growing a forest changes no view up to a limit the log
  had already reached;
* `Forest.upTo` — the forest as it was when a log held its first events.
-/

namespace BranchLog

/-- One log: what is fixed when it is made, its parent with the boundary it
branched off at, and its events. -/
structure Node (μ ε : Type) where
  info : μ
  parent : Option (Nat × Nat)
  events : List ε

/-- Every parent is an older log that has reached the boundary. -/
def WellFormed {μ ε : Type} (nodes : List (Node μ ε)) : Prop :=
  ∀ (i : Nat) (node : Node μ ε), nodes[i]? = some node → ∀ p b, node.parent = some (p, b) →
    p < i ∧ ∃ source, nodes[p]? = some source ∧ b ≤ source.events.length

/-- A collection of logs, numbered in order of creation. -/
structure Forest (μ ε : Type) where
  nodes : List (Node μ ε)
  wellFormed : WellFormed nodes

section

variable {μ ε : Type}

/-! ## Growing -/

/-- A log with one more event. -/
def Node.push (e : ε) (node : Node μ ε) : Node μ ε := { node with events := node.events ++ [e] }

/-- Parents stay long enough as long as no log is cut. -/
theorem wellFormed_modify_of {nodes : List (Node μ ε)} (h : WellFormed nodes) (i : Nat) {f : Node μ ε → Node μ ε}
    (hparents : ∀ node, (f node).parent = node.parent)
    (hlengths : ∀ node, node.events.length ≤ (f node).events.length) : WellFormed (nodes.modify i f) := by
  intro j node hnode p b hparent
  rw [List.getElem?_modify] at hnode
  obtain ⟨old, hold, rfl⟩ := Option.map_eq_some_iff.mp hnode
  have hparent' : old.parent = some (p, b) := by
    rw [← hparent]
    split
    · exact (hparents old).symm
    · rfl
  obtain ⟨hlt, source, hsource, hb⟩ := h j old hold p b hparent'
  refine ⟨hlt, if i = p then f source else source, ?_, ?_⟩
  · rw [List.getElem?_modify, hsource]
    split <;> simp_all
  · split
    · exact hb.trans (hlengths source)
    · exact hb

theorem wellFormed_modify {nodes : List (Node μ ε)} (h : WellFormed nodes) (i : Nat) (e : ε) :
    WellFormed (nodes.modify i (Node.push e)) :=
  wellFormed_modify_of h i (fun _ => rfl) fun node => by simp [Node.push]

/-- Append an event to log `i`. -/
def Forest.append (f : Forest μ ε) (i : Nat) (e : ε) : Forest μ ε where
  nodes := f.nodes.modify i (Node.push e)
  wellFormed := wellFormed_modify f.wellFormed i e

/-- A log with an event changed in place. -/
def Node.amend (k : Nat) (g : ε → ε) (node : Node μ ε) : Node μ ε := { node with events := node.events.modify k g }

/-- Change the `k`th event of log `i` in place. -/
def Forest.amend (f : Forest μ ε) (i k : Nat) (g : ε → ε) : Forest μ ε where
  nodes := f.nodes.modify i (Node.amend k g)
  wellFormed := wellFormed_modify_of f.wellFormed i (fun _ => rfl) fun node => by simp [Node.amend]

theorem wellFormed_concat {nodes : List (Node μ ε)} (h : WellFormed nodes) (node : Node μ ε)
    (hnode : ∀ p b, node.parent = some (p, b) → ∃ source, nodes[p]? = some source ∧ b ≤ source.events.length) :
    WellFormed (nodes ++ [node]) := by
  intro i other hother p b hparent
  rcases Nat.lt_trichotomy i nodes.length with hlt | heq | hgt
  · rw [List.getElem?_append_left hlt] at hother
    obtain ⟨hp, source, hsource, hb⟩ := h i other hother p b hparent
    exact ⟨hp, source, by rw [List.getElem?_append_left (by omega), hsource], hb⟩
  · subst heq
    rw [List.getElem?_concat_length, Option.some.injEq] at hother
    subst hother
    obtain ⟨source, hsource, hb⟩ := hnode p b hparent
    have hp : p < nodes.length := (List.getElem?_eq_some_iff.mp hsource).1
    exact ⟨hp, source, by rw [List.getElem?_append_left hp, hsource], hb⟩
  · rw [List.getElem?_eq_none (by simp; omega)] at hother
    cases hother

/-- A new log without a parent. -/
def Forest.root (f : Forest μ ε) (info : μ) : Forest μ ε where
  nodes := f.nodes ++ [⟨info, none, []⟩]
  wellFormed := wellFormed_concat f.wellFormed _ (by simp)

/-- A new log that branches off log `p` at boundary `b`, with its first
events. -/
def Forest.branch (f : Forest μ ε) (info : μ) (p b : Nat) (events : List ε)
    (h : ∃ source, f.nodes[p]? = some source ∧ b ≤ source.events.length) : Forest μ ε where
  nodes := f.nodes ++ [⟨info, some (p, b), events⟩]
  wellFormed := wellFormed_concat f.wellFormed _ (by rintro p' b' ⟨⟩; exact h)

/-! ## Later states -/

/-- Every log of `f` is a log of `g` that has at least its events. -/
def Extends (f g : Forest μ ε) : Prop :=
  ∀ (i : Nat) (node : Node μ ε), f.nodes[i]? = some node →
    ∃ node', g.nodes[i]? = some node' ∧ node'.info = node.info ∧ node'.parent = node.parent ∧
      node.events <+: node'.events

theorem Extends.refl (f : Forest μ ε) : Extends f f :=
  fun _ node hnode => ⟨node, hnode, rfl, rfl, List.prefix_refl _⟩

theorem Extends.trans {f g h : Forest μ ε} (hfg : Extends f g) (hgh : Extends g h) : Extends f h := by
  intro i node hnode
  obtain ⟨node', hnode', hinfo, hparent, hprefix⟩ := hfg i node hnode
  obtain ⟨node'', hnode'', hinfo', hparent', hprefix'⟩ := hgh i node' hnode'
  exact ⟨node'', hnode'', hinfo'.trans hinfo, hparent'.trans hparent, hprefix.trans hprefix'⟩

theorem extends_append (f : Forest μ ε) (i : Nat) (e : ε) : Extends f (f.append i e) := by
  intro j node hnode
  refine ⟨if i = j then node.push e else node, ?_, ?_, ?_, ?_⟩
  · simp only [Forest.append, List.getElem?_modify, hnode]
    split <;> simp_all
  · split <;> rfl
  · split <;> rfl
  · split
    · exact List.prefix_append _ _
    · exact List.prefix_refl _

private theorem extends_concat {f g : Forest μ ε} {node : Node μ ε} (h : g.nodes = f.nodes ++ [node]) :
    Extends f g := by
  intro i old hold
  have hi : i < f.nodes.length := (List.getElem?_eq_some_iff.mp hold).1
  exact ⟨old, by rw [h, List.getElem?_append_left hi, hold], rfl, rfl, List.prefix_refl _⟩

theorem extends_root (f : Forest μ ε) (info : μ) : Extends f (f.root info) := extends_concat rfl

theorem extends_branch (f : Forest μ ε) (info : μ) (p b : Nat) (events : List ε)
    (h : ∃ source, f.nodes[p]? = some source ∧ b ≤ source.events.length) : Extends f (f.branch info p b events h) :=
  extends_concat rfl

/-- Appending to one log leaves the others as they are. -/
theorem getElem?_append_of_ne (f : Forest μ ε) {i j : Nat} (hne : j ≠ i) (e : ε) :
    (f.append j e).nodes[i]? = f.nodes[i]? := by
  simp [Forest.append, hne]

/-! ## Views -/

section

variable {β : Type} (read : μ → List ε → β → β) (base : β)

/-- Read log `i` up to `limit`, on top of its parent up to the boundary.  The
fuel bounds the length of the ancestry. -/
def viewFuel (nodes : List (Node μ ε)) : Nat → Nat → Nat → β
  | 0, _, _ => base
  | fuel + 1, i, limit =>
    match nodes[i]? with
    | none => base
    | some node =>
      read node.info (node.events.take limit)
        (match node.parent with
        | none => base
        | some (p, b) => viewFuel nodes fuel p b)

/-- The view of log `i` up to `limit`.  Parents are older, so the ancestry is
no longer than the log's number. -/
def Forest.view (f : Forest μ ε) (i limit : Nat) : β := viewFuel read base f.nodes (i + 1) i limit

variable {read base}

/-- Enough fuel is as good as any. -/
theorem viewFuel_eq {nodes : List (Node μ ε)} (hwf : WellFormed nodes) (fuel i limit : Nat) (h : i < fuel) :
    viewFuel read base nodes fuel i limit = viewFuel read base nodes (i + 1) i limit := by
  induction i using Nat.strong_induction_on generalizing fuel limit with
  | h i ih =>
    cases fuel with
    | zero => omega
    | succ fuel =>
      simp only [viewFuel]
      cases hnode : nodes[i]? with
      | none => rfl
      | some node =>
        cases hparent : node.parent with
        | none => simp only [hparent]
        | some parent =>
          obtain ⟨p, b⟩ := parent
          obtain ⟨hlt, -⟩ := hwf i node hnode p b hparent
          simp only [hparent, ih p hlt fuel b (by omega), ih p hlt i b hlt]

/-- A view is its log's reading over the view of the parent. -/
theorem view_eq (f : Forest μ ε) {i : Nat} {node : Node μ ε} (hnode : f.nodes[i]? = some node) (limit : Nat) :
    f.view read base i limit =
      read node.info (node.events.take limit)
        (match node.parent with
        | none => base
        | some (p, b) => f.view read base p b) := by
  simp only [Forest.view]
  rw [viewFuel, hnode]
  cases hparent : node.parent with
  | none => simp only [hparent]
  | some parent =>
    obtain ⟨p, b⟩ := parent
    obtain ⟨hlt, -⟩ := f.wellFormed i node hnode p b hparent
    simp only [hparent, viewFuel_eq f.wellFormed i p b hlt]

/-- Later events of any log change no view up to a limit its log had reached. -/
theorem view_of_extends {f g : Forest μ ε} (h : Extends f g) {i : Nat} {node : Node μ ε}
    (hnode : f.nodes[i]? = some node) {limit : Nat} (hlimit : limit ≤ node.events.length) :
    g.view read base i limit = f.view read base i limit := by
  induction i using Nat.strong_induction_on generalizing node limit with
  | h i ih =>
    obtain ⟨node', hnode', hinfo, hparent', suffix, hsuffix⟩ := h i node hnode
    have htake : node'.events.take limit = node.events.take limit := by
      rw [← hsuffix, List.take_append_of_le_length hlimit]
    rw [view_eq f hnode, view_eq g hnode', hinfo, hparent', htake]
    cases hparent : node.parent with
    | none => rfl
    | some parent =>
      obtain ⟨p, b⟩ := parent
      obtain ⟨hlt, source, hsource, hb⟩ := f.wellFormed i node hnode p b hparent
      simp only [ih p hlt hsource hb]

/-- Changing an event on which no reading of its log depends changes no view. -/
theorem view_amend (f : Forest μ ε) (i k : Nat) (g : ε → ε)
    (hread : ∀ node, f.nodes[i]? = some node → ∀ limit b,
      read node.info ((node.events.modify k g).take limit) b = read node.info (node.events.take limit) b)
    (j limit : Nat) : (f.amend i k g).view read base j limit = f.view read base j limit := by
  induction j using Nat.strong_induction_on generalizing limit with
  | h j ih =>
    cases hnode : f.nodes[j]? with
    | none =>
      have hnone : (f.amend i k g).nodes[j]? = none := by rw [Forest.amend, List.getElem?_modify, hnode]; rfl
      rw [Forest.view, Forest.view, viewFuel, viewFuel, hnone, hnode]
    | some node =>
      have hamended : (f.amend i k g).nodes[j]? = some (if i = j then node.amend k g else node) := by
        simp only [Forest.amend, List.getElem?_modify, hnode]
        split <;> rfl
      have hparents : (if i = j then node.amend k g else node).parent = node.parent := by split <;> rfl
      have hown : ∀ b, read (if i = j then node.amend k g else node).info
          ((if i = j then node.amend k g else node).events.take limit) b =
          read node.info (node.events.take limit) b := by
        intro b
        split
        · next hij => exact hread node (by rw [hij]; exact hnode) limit b
        · rfl
      rw [view_eq f hnode, view_eq (f.amend i k g) hamended, hparents, hown]
      cases hparent : node.parent with
      | none => rfl
      | some parent =>
        obtain ⟨p, b⟩ := parent
        simp only [ih p (f.wellFormed j node hnode p b hparent).1]

end

/-! ## Earlier states -/

/-- The logs up to `i`, the last of them cut to its first `k` events. -/
def Forest.upTo (f : Forest μ ε) (i k : Nat) : Forest μ ε where
  nodes := f.nodes.take i ++ (f.nodes[i]?.map fun node => { node with events := node.events.take k }).toList
  wellFormed := by
    cases hnode : f.nodes[i]? with
    | none =>
      simp only [Option.map_none, Option.toList_none, List.append_nil]
      rw [List.take_of_length_le (List.getElem?_eq_none_iff.mp hnode)]
      exact f.wellFormed
    | some node =>
      have hi : i < f.nodes.length := (List.getElem?_eq_some_iff.mp hnode).1
      have htake : WellFormed (f.nodes.take i) := by
        intro j other hother p b hparent
        rw [List.getElem?_take] at hother
        split at hother
        · next hj =>
          obtain ⟨hlt, source, hsource, hb⟩ := f.wellFormed j other hother p b hparent
          exact ⟨hlt, source, by rw [List.getElem?_take, if_pos (by omega), hsource], hb⟩
        · cases hother
      refine wellFormed_concat htake _ ?_
      intro p b hparent
      obtain ⟨hlt, source, hsource, hb⟩ := f.wellFormed i node hnode p b hparent
      exact ⟨source, by rw [List.getElem?_take, if_pos hlt, hsource], hb⟩

theorem getElem?_upTo_self (f : Forest μ ε) {i : Nat} {node : Node μ ε} (hnode : f.nodes[i]? = some node) (k : Nat) :
    (f.upTo i k).nodes[i]? = some { node with events := node.events.take k } := by
  have hi : i < f.nodes.length := (List.getElem?_eq_some_iff.mp hnode).1
  simp only [Forest.upTo, hnode, Option.map_some, Option.toList_some]
  rw [List.getElem?_append_right (by rw [List.length_take]; omega)]
  simp [Nat.min_eq_left (Nat.le_of_lt hi)]

/-- The cut forest is an earlier state. -/
theorem extends_upTo (f : Forest μ ε) (i k : Nat) : Extends (f.upTo i k) f := by
  intro j old hold
  by_cases hj : j < (f.nodes.take i).length
  · simp only [Forest.upTo] at hold
    rw [List.getElem?_append_left hj, List.getElem?_take] at hold
    split at hold
    · exact ⟨old, hold, rfl, rfl, List.prefix_refl _⟩
    · cases hold
  · cases hnode : f.nodes[i]? with
    | none =>
      simp only [Forest.upTo, hnode, Option.map_none, Option.toList_none, List.append_nil] at hold
      exact absurd (List.getElem?_eq_some_iff.mp hold).1 hj
    | some node =>
      have hi : i < f.nodes.length := (List.getElem?_eq_some_iff.mp hnode).1
      have hji : j = i := by
        have hlength := (List.getElem?_eq_some_iff.mp hold).1
        simp only [Forest.upTo, hnode, Option.map_some, Option.toList_some, List.length_append, List.length_take,
          List.length_singleton] at hlength hj
        omega
      subst hji
      rw [getElem?_upTo_self f hnode, Option.some.injEq] at hold
      subst hold
      exact ⟨node, hnode, rfl, rfl, List.take_prefix _ _⟩

end

end BranchLog
