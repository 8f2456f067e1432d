import Mathlib.Data.List.Nodup
import Mathlib.Data.List.Perm.Subperm
import Mathlib.Data.Set.Function

/-!
# MinionAgent.Library.GraphCopy

Graphs whose nodes have a kind and labelled fields, and copies of what a value
of such a graph leads to, shared nodes and cycles included.

* `follow`, `reached` — what a path of labels leads to;
* `IsCopy` — the nodes reached, renamed: `follow_copy`, `follow_eq_iff` and
  `bijOn_reached` are what a copy keeps;
* `Copying` — a copy under way, by the pairs of nodes and copies made so far:
  `allocate`, `update`, `close` are the steps of an algorithm, and `isCopy` its
  end;
* `Growing` — the same where the copies are put behind what is copied.
-/

namespace GraphCopy

/-- A node; a value is a leaf or a node. -/
structure Node (ι κ L A : Type) where
  kind : κ
  field : L → Option (A ⊕ ι)

/-- The nodes that there are. -/
abbrev Graph (ι κ L A : Type) : Type := ι → Option (Node ι κ L A)

variable {ι ι' κ L A : Type}

theorem mem_of_lookup {K V : Type} {_ : BEq K} [LawfulBEq K] {items : List (K × V)} {k : K} {v : V}
    (h : items.lookup k = some v) : (k, v) ∈ items := by
  obtain ⟨front, back, hsplit, _⟩ := List.lookup_eq_some_iff.mp h
  exact hsplit ▸ by simp

theorem notMem_of_lookup {K V : Type} {_ : BEq K} [LawfulBEq K] {items : List (K × V)} {k : K}
    (h : items.lookup k = none) : k ∉ items.map Prod.fst := by
  intro hmem
  obtain ⟨item, hitem, rfl⟩ := List.mem_map.mp hmem
  simpa using List.lookup_eq_none_iff.mp h item hitem

theorem lookup_eq_some_iff {K V : Type} {_ : BEq K} [LawfulBEq K] {items : List (K × V)}
    (hnodup : (items.map Prod.fst).Nodup) {k : K} {v : V} : items.lookup k = some v ↔ (k, v) ∈ items := by
  refine ⟨mem_of_lookup, fun hmem => ?_⟩
  cases hlookup : items.lookup k with
  | none => exact absurd (List.mem_map_of_mem hmem) (notMem_of_lookup hlookup)
  | some v' =>
    have heq : (k, v') = (k, v) := List.inj_on_of_nodup_map hnodup (mem_of_lookup hlookup) hmem rfl
    exact congrArg some (congrArg Prod.snd heq)

/-! ## Paths -/

/-- What a path of labels leads to. -/
def follow (G : Graph ι κ L A) : A ⊕ ι → List L → Option (A ⊕ ι)
  | v, [] => some v
  | .inl _, _ :: _ => none
  | .inr r, l :: path => ((G r).bind fun n => n.field l).bind fun v => follow G v path

/-- The nodes that a value leads to. -/
def reached (G : Graph ι κ L A) (v : A ⊕ ι) : Set ι := {r | ∃ path, follow G v path = some (.inr r)}

theorem follow_append (G : Graph ι κ L A) (v : A ⊕ ι) (path more : List L) :
    follow G v (path ++ more) = (follow G v path).bind fun v => follow G v more := by
  induction path generalizing v with
  | nil => rfl
  | cons l path ih =>
    cases v with
    | inl a => rfl
    | inr r =>
      simp only [List.cons_append, follow, ih]
      cases (G r).bind fun n => n.field l with
      | none => rfl
      | some v => rfl

theorem reached_self (G : Graph ι κ L A) (r : ι) : r ∈ reached G (.inr r) := ⟨[], rfl⟩

/-- What a field of a reached node leads to is reached. -/
theorem reached_field {G : Graph ι κ L A} {v v' : A ⊕ ι} {r : ι} (hr : r ∈ reached G v) {n : Node ι κ L A}
    (hn : G r = some n) {l : L} (hl : n.field l = some v') : reached G v' ⊆ reached G v := by
  intro r' hr'
  obtain ⟨path, hpath⟩ := hr
  obtain ⟨more, hmore⟩ := hr'
  refine ⟨path ++ l :: more, ?_⟩
  rw [follow_append, hpath, Option.bind_some, follow, hn, Option.bind_some, hl, Option.bind_some, hmore]

/-- A set of nodes that is closed under fields holds all that a value leads to
if it holds the value. -/
theorem reached_subset {G : Graph ι κ L A} {v : A ⊕ ι} {S : Set ι} (hv : ∀ r, v = .inr r → r ∈ S)
    (hS : ∀ r ∈ S, ∀ n, G r = some n → ∀ l r', n.field l = some (.inr r') → r' ∈ S) : reached G v ⊆ S := by
  intro r ⟨path, hpath⟩
  induction path generalizing v with
  | nil => exact hv r (Option.some.inj hpath)
  | cons l path ih =>
    cases v with
    | inl a => cases hpath
    | inr r' =>
      rw [follow, Option.bind_eq_some_iff] at hpath
      obtain ⟨v, hfield, hpath⟩ := hpath
      obtain ⟨n, hn, hl⟩ := Option.bind_eq_some_iff.mp hfield
      refine ih (fun r'' hr'' => ?_) hpath
      exact hS r' (hv r' rfl) n hn l r'' (hr'' ▸ hl)

/-! ## Copies -/

/-- The fields of a node, renamed. -/
def Node.map (f : ι → ι') (n : Node ι κ L A) : Node ι' κ L A where
  kind := n.kind
  field l := (n.field l).map (Sum.map id f)

/-- A value of another graph is a copy: the nodes it leads to are renamed, and
those renamed are different where the nodes are. -/
structure IsCopy (G : Graph ι κ L A) (G' : Graph ι' κ L A) (v : A ⊕ ι) (v' : A ⊕ ι') (f : ι → ι') : Prop where
  root : v' = v.map id f
  injOn : Set.InjOn f (reached G v)
  node : ∀ r ∈ reached G v, G' (f r) = (G r).map (Node.map f)

namespace IsCopy

variable {G : Graph ι κ L A} {G' : Graph ι' κ L A} {v : A ⊕ ι} {v' : A ⊕ ι'} {f : ι → ι'}

/-- The same path leads to the copy of what it leads to. -/
theorem follow_copy (h : IsCopy G G' v v' f) (path : List L) :
    follow G' v' path = (follow G v path).map (Sum.map id f) := by
  induction path generalizing v v' with
  | nil => rw [follow, follow, h.root, Option.map_some]
  | cons l path ih =>
    obtain rfl := h.root
    cases v with
    | inl a => rfl
    | inr r =>
      have hr := reached_self G r
      rw [Sum.map_inr, follow, follow, h.node r hr]
      cases hn : G r with
      | none => rfl
      | some n =>
        rw [Option.map_some, Option.bind_some, Option.bind_some]
        simp only [Node.map]
        cases hl : n.field l with
        | none => rfl
        | some child =>
          have hsub := reached_field hr hn hl
          rw [Option.map_some, Option.bind_some, Option.bind_some]
          exact ih ⟨rfl, h.injOn.mono hsub, fun r' hr' => h.node r' (hsub hr')⟩

/-- The nodes a copy leads to are the copies of the nodes that the value leads
to, each of one. -/
theorem bijOn_reached (h : IsCopy G G' v v' f) : Set.BijOn f (reached G v) (reached G' v') := by
  refine ⟨fun r ⟨path, hpath⟩ => ⟨path, ?_⟩, h.injOn, fun r' ⟨path, hpath⟩ => ?_⟩
  · rw [h.follow_copy, hpath, Option.map_some, Sum.map_inr]
  · rw [h.follow_copy, Option.map_eq_some_iff] at hpath
    obtain ⟨w, hw, hmap⟩ := hpath
    cases w with
    | inl a => cases hmap
    | inr r => exact ⟨r, ⟨path, hw⟩, Sum.inr.inj hmap⟩

/-- Two paths lead to the same in the copy exactly where they lead to the same
in what is copied. -/
theorem follow_eq_iff (h : IsCopy G G' v v' f) (path path' : List L) :
    follow G' v' path = follow G' v' path' ↔ follow G v path = follow G v path' := by
  rw [h.follow_copy, h.follow_copy]
  refine ⟨fun heq => ?_, fun heq => heq ▸ rfl⟩
  cases hpath : follow G v path with
  | none =>
    rw [hpath, Option.map_none] at heq
    exact (Option.map_eq_none_iff.mp heq.symm).symm
  | some w =>
    rw [hpath, Option.map_some] at heq
    obtain ⟨w', hpath', hw'⟩ := Option.map_eq_some_iff.mp heq.symm
    rw [hpath']
    cases w with
    | inl a =>
      cases w' with
      | inl a' => exact congrArg some (congrArg Sum.inl (Sum.inl.inj hw').symm)
      | inr r' => cases hw'
    | inr r =>
      cases w' with
      | inl a' => cases hw'
      | inr r' => exact congrArg some (congrArg Sum.inr (h.injOn ⟨_, hpath⟩ ⟨_, hpath'⟩ (Sum.inr.inj hw').symm))

end IsCopy

/-! ## Copying -/

/-- A value and its copy, by the pairs of nodes and their copies. -/
def Paired (memo : List (ι × ι')) (v : A ⊕ ι) (v' : A ⊕ ι') : Prop := Sum.LiftRel Eq (fun r t => (r, t) ∈ memo) v v'

theorem Paired.mono {memo memo' : List (ι × ι')} (hsub : memo ⊆ memo') {v : A ⊕ ι} {v' : A ⊕ ι'}
    (h : Paired memo v v') : Paired memo' v v' :=
  Sum.LiftRel.mono_right (fun _ _ hmem => hsub hmem) h

/-- A node and its copy. -/
structure Node.Paired (memo : List (ι × ι')) (n : Node ι κ L A) (n' : Node ι' κ L A) : Prop where
  kind : n.kind = n'.kind
  field : ∀ l, Option.Rel (GraphCopy.Paired memo) (n.field l) (n'.field l)

theorem optionRel_mono {α β : Type} {R S : α → β → Prop} (hRS : ∀ a b, R a b → S a b) {a : Option α} {b : Option β}
    (h : Option.Rel R a b) : Option.Rel S a b := by
  cases h with
  | none => exact .none
  | some h => exact .some (hRS _ _ h)

theorem eq_map_of_rel {α β : Type} {R : α → β → Prop} {g : α → β} (hR : ∀ a b, R a b → b = g a) {a : Option α}
    {b : Option β} (h : Option.Rel R a b) : b = a.map g := by
  cases h with
  | none => rfl
  | some h => exact congrArg some (hR _ _ h)

theorem Node.Paired.mono {memo memo' : List (ι × ι')} (hsub : memo ⊆ memo') {n : Node ι κ L A} {n' : Node ι' κ L A}
    (h : n.Paired memo n') : n.Paired memo' n' :=
  ⟨h.kind, fun l => optionRel_mono (fun _ _ => GraphCopy.Paired.mono hsub) (h.field l)⟩

/-- A node whose fields are paired with themselves. -/
theorem Node.paired_self {memo : List (ι × ι)} {n : Node ι κ L A}
    (h : ∀ l r, n.field l = some (.inr r) → (r, r) ∈ memo) : n.Paired memo n := by
  refine ⟨rfl, fun l => ?_⟩
  cases hl : n.field l with
  | none => exact .none
  | some v =>
    cases v with
    | inl a => exact .some (.inl rfl)
    | inr r => exact .some (.inr (h l r hl))

/-- A copy under way: the copies made are one of each node, and complete but for
those of the open nodes. -/
structure Copying (G : Graph ι κ L A) (G' : Graph ι' κ L A) (memo : List (ι × ι')) (opened : Set ι) : Prop where
  sources : (memo.map Prod.fst).Nodup
  targets : (memo.map Prod.snd).Nodup
  complete : ∀ r t, (r, t) ∈ memo → r ∉ opened → ∃ n n', G r = some n ∧ G' t = some n' ∧ n.Paired memo n'

namespace Copying

variable {G : Graph ι κ L A} {G' G'' : Graph ι' κ L A} {memo : List (ι × ι')} {opened : Set ι}

theorem nil (G : Graph ι κ L A) (G' : Graph ι' κ L A) : Copying G G' [] opened :=
  ⟨List.nodup_nil, List.nodup_nil, fun _ _ hmem => absurd hmem List.not_mem_nil⟩

/-- The copies of open nodes may change. -/
theorem update (h : Copying G G' memo opened) (hsame : ∀ r t, (r, t) ∈ memo → r ∉ opened → G'' t = G' t) :
    Copying G G'' memo opened := by
  refine ⟨h.sources, h.targets, fun r t hmem hr => ?_⟩
  rw [hsame r t hmem hr]
  exact h.complete r t hmem hr

/-- More nodes may count as open. -/
theorem mono (h : Copying G G' memo opened) {opened' : Set ι} (hsub : opened ⊆ opened') :
    Copying G G' memo opened' :=
  ⟨h.sources, h.targets, fun r t hmem hr => h.complete r t hmem fun hr' => hr (hsub hr')⟩

/-- A new node is open. -/
theorem allocate (h : Copying G G' memo opened) {r : ι} {t : ι'} (hr : r ∉ memo.map Prod.fst)
    (ht : t ∉ memo.map Prod.snd) : Copying G G' ((r, t) :: memo) (insert r opened) := by
  refine ⟨List.nodup_cons.mpr ⟨hr, h.sources⟩, List.nodup_cons.mpr ⟨ht, h.targets⟩, fun r' t' hmem hr' => ?_⟩
  obtain ⟨hne, hopened⟩ : r' ≠ r ∧ r' ∉ opened := by simpa using hr'
  have hold : (r', t') ∈ memo := by
    cases hmem with
    | head => exact absurd rfl hne
    | tail _ hold => exact hold
  obtain ⟨n, n', hn, hn', hpaired⟩ := h.complete r' t' hold hopened
  exact ⟨n, n', hn, hn', hpaired.mono (List.subset_cons_self ..)⟩

/-- The copy of a node is complete. -/
theorem close (h : Copying G G' memo opened) {r : ι} {t : ι'} (hmem : (r, t) ∈ memo) {n : Node ι κ L A}
    {n' : Node ι' κ L A} (hn : G r = some n) (hn' : G' t = some n') (hpaired : n.Paired memo n') :
    Copying G G' memo (opened \ {r}) := by
  refine ⟨h.sources, h.targets, fun r' t' hmem' hr' => ?_⟩
  by_cases heq : r' = r
  · subst heq
    have ht : (r', t) = (r', t') := List.inj_on_of_nodup_map h.sources hmem hmem' rfl
    obtain rfl := congrArg Prod.snd ht
    exact ⟨n, n', hn, hn', hpaired⟩
  · exact h.complete r' t' hmem' fun hopened => hr' ⟨hopened, heq⟩

/-- The copy of each node. -/
def target [DecidableEq ι] [Inhabited ι'] (memo : List (ι × ι')) (r : ι) : ι' := (memo.lookup r).getD default

theorem target_eq [DecidableEq ι] [Inhabited ι'] (hsources : (memo.map Prod.fst).Nodup) {r : ι} {t : ι'}
    (hmem : (r, t) ∈ memo) : target memo r = t := by
  rw [target, (lookup_eq_some_iff hsources).mpr hmem, Option.getD_some]

theorem map_target [DecidableEq ι] [Inhabited ι'] (hsources : (memo.map Prod.fst).Nodup) {v : A ⊕ ι} {v' : A ⊕ ι'}
    (h : Paired memo v v') : v' = v.map id (target memo) := by
  cases h with
  | inl heq => exact congrArg Sum.inl heq.symm
  | inr hmem => exact congrArg Sum.inr (target_eq hsources hmem).symm

theorem node_target [DecidableEq ι] [Inhabited ι'] (hsources : (memo.map Prod.fst).Nodup) {n : Node ι κ L A}
    {n' : Node ι' κ L A} (h : n.Paired memo n') : n' = n.map (target memo) := by
  obtain ⟨kind, field⟩ := n
  obtain ⟨kind', field'⟩ := n'
  obtain rfl : kind = kind' := h.kind
  exact congrArg (Node.mk kind) (funext fun l => eq_map_of_rel (fun _ _ => map_target hsources) (h.field l))

/-- The nodes that a value leads to have copies, where nothing is open. -/
theorem reached_subset (h : Copying G G' memo ∅) {v : A ⊕ ι} {v' : A ⊕ ι'} (hv : Paired memo v v') :
    reached G v ⊆ {r | r ∈ memo.map Prod.fst} := by
  refine GraphCopy.reached_subset (fun r hr => ?_) fun r hr n hn l r' hl => ?_
  · subst hr
    cases hv with
    | inr hmem => exact List.mem_map.mpr ⟨_, hmem, rfl⟩
  · obtain ⟨⟨r, t⟩, hmem, rfl⟩ := List.mem_map.mp hr
    obtain ⟨n₀, n', hn₀, _, hpaired⟩ := h.complete r t hmem (Set.notMem_empty _)
    obtain rfl := Option.some.inj (hn.symm.trans hn₀)
    have hfield := hpaired.field l
    rw [hl] at hfield
    cases hfl : n'.field l with
    | none =>
      rw [hfl] at hfield
      cases hfield
    | some w =>
      rw [hfl] at hfield
      cases hfield with
      | some hw =>
        cases hw with
        | inr hmem' => exact List.mem_map.mpr ⟨_, hmem', rfl⟩

/-- Where nothing is open, a value that is paired is copied. -/
theorem isCopy [DecidableEq ι] [Inhabited ι'] (h : Copying G G' memo ∅) {v : A ⊕ ι} {v' : A ⊕ ι'}
    (hv : Paired memo v v') : IsCopy G G' v v' (target memo) := by
  refine ⟨map_target h.sources hv, fun r hr r' hr' heq => ?_, fun r hr => ?_⟩
  · obtain ⟨⟨r, t⟩, hmem, rfl⟩ := List.mem_map.mp (h.reached_subset hv hr)
    obtain ⟨⟨r', t'⟩, hmem', rfl⟩ := List.mem_map.mp (h.reached_subset hv hr')
    rw [target_eq h.sources hmem, target_eq h.sources hmem'] at heq
    exact congrArg Prod.fst (List.inj_on_of_nodup_map h.targets hmem hmem' heq)
  · obtain ⟨⟨r, t⟩, hmem, rfl⟩ := List.mem_map.mp (h.reached_subset hv hr)
    obtain ⟨n, n', hn, hn', hpaired⟩ := h.complete r t hmem (Set.notMem_empty _)
    rw [target_eq h.sources hmem, hn', hn, Option.map_some, node_target h.sources hpaired]

end Copying

/-! ## Copies in one heap -/

/-- The graph of a heap. -/
def nodes {C : Type} (node : C → Node Nat κ L A) (cells : List C) : Graph Nat κ L A := fun r => cells[r]?.map node

/-- A copy under way within a heap: the copies are behind the cells there were,
which are left. -/
structure Growing {C : Type} (node : C → Node Nat κ L A) (source cells : List C) (memo : List (Nat × Nat))
    (opened : Set Nat) : Prop where
  copying : Copying (nodes node source) (nodes node cells) memo opened
  left : ∀ r < source.length, cells[r]? = source[r]?
  pairs : ∀ r t, (r, t) ∈ memo → r < source.length ∧ source.length ≤ t ∧ t < cells.length

namespace Growing

variable {C : Type} {node : C → Node Nat κ L A} {source cells : List C} {memo : List (Nat × Nat)} {opened : Set Nat}

theorem nil (node : C → Node Nat κ L A) (source : List C) : Growing node source source [] opened :=
  ⟨.nil _ _, fun _ _ => rfl, fun _ _ hmem => absurd hmem List.not_mem_nil⟩

theorem mono (h : Growing node source cells memo opened) {opened' : Set Nat} (hsub : opened ⊆ opened') :
    Growing node source cells memo opened' :=
  ⟨h.copying.mono hsub, h.left, h.pairs⟩

theorem length_le (h : Growing node source cells memo opened) : source.length ≤ cells.length := by
  by_contra hlt
  have hnone := h.left cells.length (by omega)
  rw [List.getElem?_eq_none le_rfl, List.getElem?_eq_getElem (by omega)] at hnone
  cases hnone

/-- No more cells have copies than there were. -/
theorem length_memo_le (h : Growing node source cells memo opened) : memo.length ≤ source.length := by
  have hsub : memo.map Prod.fst ⊆ List.range source.length := by
    intro r hr
    obtain ⟨⟨r, t⟩, hmem, rfl⟩ := List.mem_map.mp hr
    exact List.mem_range.mpr (h.pairs r t hmem).1
  simpa using (List.subperm_of_subset h.copying.sources hsub).length_le

/-- The copy of a new cell is behind the others. -/
theorem allocate (h : Growing node source cells memo opened) {r : Nat} (hr : r < source.length)
    (hnew : memo.lookup r = none) (cell : C) :
    Growing node source (cells ++ [cell]) ((r, cells.length) :: memo) (insert r opened) := by
  have hold {t : Nat} (ht : t < cells.length) : (cells ++ [cell])[t]? = cells[t]? := List.getElem?_append_left ht
  have hlength := h.length_le
  refine ⟨?_, fun r' hr' => ?_, fun r' t hmem => ?_⟩
  · refine (h.copying.update fun r' t hmem _ => ?_).allocate (notMem_of_lookup hnew) fun hmem => ?_
    · rw [nodes, nodes, hold (h.pairs r' t hmem).2.2]
    · obtain ⟨⟨r', t⟩, hmem, ht⟩ := List.mem_map.mp hmem
      exact absurd ht (Nat.ne_of_lt (h.pairs r' t hmem).2.2)
  · rw [hold (by omega)]
    exact h.left r' hr'
  · rw [List.length_append, List.length_singleton]
    cases hmem with
    | head => exact ⟨hr, hlength, Nat.lt_succ_self _⟩
    | tail _ hmem =>
      obtain ⟨hr', ht, ht'⟩ := h.pairs r' t hmem
      exact ⟨hr', ht, by omega⟩

/-- The copy of another cell is another. -/
theorem target_ne (h : Growing node source cells memo opened) {r t r' t' : Nat} (hmem : (r, t) ∈ memo)
    (hmem' : (r', t') ∈ memo) (hr : r' ≠ r) : t' ≠ t := by
  intro heq
  exact hr (congrArg Prod.fst (List.inj_on_of_nodup_map h.copying.targets hmem' hmem heq))

/-- The copy of an open cell may change. -/
theorem modify (h : Growing node source cells memo opened) {r t : Nat} (hmem : (r, t) ∈ memo) (hr : r ∈ opened)
    (change : C → C) : Growing node source (cells.modify t change) memo opened := by
  have hother {t' : Nat} (hne : t' ≠ t) : (cells.modify t change)[t']? = cells[t']? :=
    List.getElem?_modify_ne _ cells hne.symm
  refine ⟨?_, fun r' hr' => ?_, fun r' t' hmem' => ?_⟩
  · refine h.copying.update fun r' t' hmem' hr' => ?_
    rw [nodes, nodes, hother (h.target_ne hmem hmem' fun heq => hr' (heq ▸ hr))]
  · rw [hother fun heq => absurd (h.pairs r t hmem).2.1 (by omega)]
    exact h.left r' hr'
  · rw [List.length_modify]
    exact h.pairs r' t' hmem'

/-- The copy of a cell is complete. -/
theorem close (h : Growing node source cells memo opened) {r t : Nat} (hmem : (r, t) ∈ memo) {cell cell' : C}
    (hr : source[r]? = some cell) (ht : cells[t]? = some cell') (hpaired : (node cell).Paired memo (node cell')) :
    Growing node source cells memo (opened \ {r}) :=
  ⟨h.copying.close hmem (congrArg (Option.map node) hr) (congrArg (Option.map node) ht) hpaired, h.left, h.pairs⟩

/-- What the copy leads to is behind the cells there were. -/
theorem length_le_of_reached (h : Growing node source cells memo ∅) {v v' : A ⊕ Nat} (hv : Paired memo v v') {t : Nat}
    (ht : t ∈ reached (nodes node cells) v') : source.length ≤ t ∧ t < cells.length := by
  obtain ⟨r, hr, rfl⟩ := (h.copying.isCopy hv).bijOn_reached.surjOn ht
  obtain ⟨⟨r, t⟩, hmem, rfl⟩ := List.mem_map.mp (h.copying.reached_subset hv hr)
  rw [Copying.target_eq h.copying.sources hmem]
  exact (h.pairs r t hmem).2

end Growing

/-! ## Objects and arrays -/

inductive Kind
  | object
  | array
deriving DecidableEq

variable {K : Type}

section

variable [DecidableEq K]

/-- An object, by its keys. -/
def Node.object (items : List (K × (A ⊕ ι))) : Node ι Kind (K ⊕ Nat) A where
  kind := .object
  field
    | .inl key => items.lookup key
    | .inr _ => none

/-- An array, by the positions in it. -/
def Node.array (values : List (A ⊕ ι)) : Node ι Kind (K ⊕ Nat) A where
  kind := .array
  field
    | .inl _ => none
    | .inr i => values[i]?

theorem paired_object {memo : List (ι × ι')} {items : List (K × (A ⊕ ι))} {items' : List (K × (A ⊕ ι'))}
    (h : List.Forall₂ (fun item item' => item.1 = item'.1 ∧ Paired memo item.2 item'.2) items items') :
    (Node.object items).Paired memo (Node.object items') := by
  refine ⟨rfl, fun l => ?_⟩
  cases l with
  | inr i => exact .none
  | inl key =>
    simp only [Node.object]
    induction h with
    | nil => exact .none
    | @cons item item' items items' hitem hitems ih =>
      obtain ⟨k, v⟩ := item
      obtain ⟨k', v'⟩ := item'
      obtain ⟨rfl, hv⟩ : k = k' ∧ Paired memo v v' := hitem
      rw [List.lookup_cons, List.lookup_cons]
      cases key == k with
      | true => exact .some hv
      | false => exact ih

omit [DecidableEq K] in
theorem paired_array {memo : List (ι × ι')} {values : List (A ⊕ ι)} {values' : List (A ⊕ ι')}
    (h : List.Forall₂ (Paired memo) values values') :
    (Node.array values : Node ι Kind (K ⊕ Nat) A).Paired memo (Node.array values') := by
  refine ⟨rfl, fun l => ?_⟩
  cases l with
  | inl key => exact .none
  | inr i =>
    simp only [Node.array]
    induction h generalizing i with
    | nil => exact .none
    | cons hv hvalues ih =>
      cases i with
      | zero => exact .some hv
      | succ i => exact ih i

/-- The order of the keys of an object makes no difference. -/
theorem object_perm {items items' : List (K × (A ⊕ ι))} (hperm : items.Perm items')
    (hnodup : (items.map Prod.fst).Nodup) : Node.object items = Node.object items' := by
  refine congrArg (Node.mk Kind.object) (funext fun l => ?_)
  cases l with
  | inr i => rfl
  | inl key =>
    have hnodup' : (items'.map Prod.fst).Nodup := (hperm.map Prod.fst).nodup_iff.mp hnodup
    refine Option.ext fun v => ?_
    simp only [lookup_eq_some_iff hnodup, lookup_eq_some_iff hnodup', hperm.mem_iff]

end

end GraphCopy
