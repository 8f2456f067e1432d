import MinionAgent.Library.GraphCopy
import MinionAgent.Llm.ObjectHeap

/-!
# MinionAgent.Llm.ObjectGraph

The graph that a heap of objects and lists is, and what `order_in_place` does
to it.

* `graph` — the nodes, by keys and positions;
* `graph_orderFrom` — re-sequencing leaves the graph;
* `orderInPlace_orders` — and puts in order all that the value leads to.
-/

namespace MinionAgent.JsObject

open PropertyOrder
open GraphCopy (Graph Kind Node reached)

variable {A : Type}

/-! ## The graph -/

def Value.toSum : Value A → A ⊕ Nat
  | .atom a => .inl a
  | .ref r => .inr r

namespace Container

/-- An object by its keys, a list by positions. -/
def node : Container A → Node Nat Kind (Key ⊕ Nat) A
  | dict items | jsObject items => .object (items.map (Prod.map id Value.toSum))
  | list values => .array (values.map Value.toSum)

def keys : Container A → List Key
  | dict items | jsObject items => items.map Prod.fst
  | list _ => []

theorem mem_children_of_field {container : Container A} {l : Key ⊕ Nat} {r : Nat}
    (h : container.node.field l = some (.inr r)) : .ref r ∈ container.children := by
  have hmem {values : List (Value A)} (hr : .inr r ∈ values.map Value.toSum) : .ref r ∈ values := by
    obtain ⟨value, hvalue, hsum⟩ := List.mem_map.mp hr
    cases value with
    | atom a => cases hsum
    | ref r' => exact Sum.inr.inj hsum ▸ hvalue
  have hobject {items : List (Key × Value A)}
      (h : (Node.object (items.map (Prod.map id Value.toSum))).field l = some (.inr r)) :
      .ref r ∈ items.map Prod.snd := by
    cases l with
    | inr i => cases h
    | inl key =>
      obtain ⟨item, hitem, heq⟩ := List.mem_map.mp (GraphCopy.mem_of_lookup h)
      exact hmem (List.mem_map.mpr ⟨item.2, List.mem_map_of_mem hitem, congrArg Prod.snd heq⟩)
  cases container with
  | dict items => exact hobject h
  | jsObject items => exact hobject h
  | list values =>
    cases l with
    | inl key => cases h
    | inr i => exact hmem (List.mem_of_getElem? h)

theorem exists_field_of_mem_children {container : Container A} (hkeys : container.keys.Nodup) {r : Nat}
    (h : .ref r ∈ container.children) : ∃ l, container.node.field l = some (.inr r) := by
  have hobject {items : List (Key × Value A)} (hkeys : (items.map Prod.fst).Nodup)
      (h : .ref r ∈ items.map Prod.snd) :
      ∃ l, (Node.object (items.map (Prod.map id Value.toSum))).field l = some (.inr r) := by
    obtain ⟨item, hitem, heq⟩ := List.mem_map.mp h
    refine ⟨.inl item.1, (GraphCopy.lookup_eq_some_iff ?_).mpr (List.mem_map.mpr ⟨item, hitem, ?_⟩)⟩
    · rw [List.map_map]
      exact hkeys
    · exact Prod.ext rfl (congrArg Value.toSum heq)
  cases container with
  | dict items => exact hobject hkeys h
  | jsObject items => exact hobject hkeys h
  | list values =>
    obtain ⟨i, hi⟩ := List.getElem?_of_mem h
    exact ⟨.inr i, (List.getElem?_map ..).trans (congrArg (Option.map Value.toSum) hi)⟩

theorem node_reordered {container : Container A} (h : container.keys.Nodup) :
    container.reordered.node = container.node := by
  have hobject {items : List (Key × Value A)} (h : (items.map Prod.fst).Nodup) :
      @Node.object Nat A Key _ ((esOrder items).map (Prod.map id Value.toSum)) =
        Node.object (items.map (Prod.map id Value.toSum)) := by
    refine (GraphCopy.object_perm ((ordered_perm items).map _).symm ?_).symm
    rw [List.map_map]
    exact h
  cases container with
  | dict items => exact hobject h
  | jsObject items => exact hobject h
  | list values => rfl

theorem keys_reordered {container : Container A} (h : container.keys.Nodup) : container.reordered.keys.Nodup := by
  cases container with
  | dict items => exact ((keys_ordered_perm items).nodup_iff).mpr h
  | jsObject items => exact ((keys_ordered_perm items).nodup_iff).mpr h
  | list values => exact h

end Container

def graph (h : Heap A) : Graph Nat Kind (Key ⊕ Nat) A := GraphCopy.nodes Container.node h

/-- The keys of each dict are different. -/
def DistinctKeys (h : Heap A) : Prop := ∀ container ∈ h, container.keys.Nodup

/-- References are to containers of the heap. -/
def Closed (h : Heap A) : Prop := ∀ container ∈ h, ∀ r, .ref r ∈ container.children → r < h.length

/-- What a tool call's arguments are: a value in a heap that holds all that it
refers to. -/
structure ArgumentGraph (A : Type) where
  heap : Heap A
  value : Value A
  closed : Closed heap
  distinctKeys : DistinctKeys heap
  root : ∀ r, value = .ref r → r < heap.length

/-! ## Re-sequencing -/

theorem graph_eq_of_reordered {h h' : Heap A} (hkeys : DistinctKeys h) {r : Nat}
    (hr : h'[r]? = h[r]? ∨ h'[r]? = h[r]?.map Container.reordered) : graph h' r = graph h r := by
  unfold graph GraphCopy.nodes
  cases hr with
  | inl hr => rw [hr]
  | inr hr =>
    rw [hr, Option.map_map]
    cases hc : h[r]? with
    | none => rfl
    | some container => exact congrArg some (Container.node_reordered (hkeys _ (List.mem_of_getElem? hc)))

theorem graph_orderInPlace {h : Heap A} (hkeys : DistinctKeys h) (value : Value A) :
    graph (orderInPlace h value) = graph h :=
  funext fun r => graph_eq_of_reordered hkeys (orderInPlace_cases h value r)

/-- What the value does not lead to is left. -/
theorem orderInPlace_of_notMem_reached {h : Heap A} (hkeys : DistinctKeys h) {value : Value A} {r : Nat}
    (hr : r ∉ reached (graph h) value.toSum) : (orderInPlace h value)[r]? = h[r]? := by
  refine (@orderFrom_spec A h [value] [] (fun a => a ∈ reached (graph h) value.toSum) ?_ ?_ r).resolve_right
    fun hr' => hr hr'.1
  · intro a b ha ⟨container, hcontainer, hb⟩
    obtain ⟨l, hl⟩ := Container.exists_field_of_mem_children (hkeys _ (List.mem_of_getElem? hcontainer)) hb
    exact GraphCopy.reached_field ha (congrArg (Option.map Container.node) hcontainer) hl (GraphCopy.reached_self _ b)
  · intro b hb
    obtain rfl := List.mem_singleton.mp hb
    exact GraphCopy.reached_self _ b

theorem length_orderFrom (h : Heap A) (pending : List (Value A)) (seen : List Nat) :
    (orderFrom h pending seen).length = h.length := by
  induction h, pending, seen using orderFrom.induct with
  | case1 h seen => rw [orderFrom]
  | case2 h seen a pending ih => rw [orderFrom, ih]
  | case3 h seen r pending hseen ih => rw [orderFrom, dif_pos hseen, ih]
  | case4 h seen r pending hseen hr ih => rw [orderFrom_dangling hr pending hseen, ih]
  | case5 h seen r pending hseen container hr ih => rw [orderFrom_visit hr pending hseen, ih, List.length_set]

/-- A container that is in order. -/
def InOrder (h : Heap A) (r : Nat) : Prop := h[r]?.map Container.reordered = h[r]?

theorem inOrder_set (h : Heap A) (container : Container A) (r : Nat) :
    InOrder (h.set r container.reordered) r := by
  unfold InOrder
  rw [List.getElem?_set_self']
  cases h[r]? with
  | none => rfl
  | some _ => exact congrArg some container.reordered_reordered

/-- The containers that `order_in_place` has seen at its end are in order, and
hold no reference to others. -/
theorem orderFrom_orders (h : Heap A) (pending : List (Value A)) (seen : List Nat)
    (hseen : ∀ a ∈ seen, InOrder h a ∧ ∀ b, PointsTo h a b → b ∈ seen ∨ .ref b ∈ pending ∨ h[b]? = none) :
    ∃ T : Set Nat, (∀ a ∈ seen, a ∈ T) ∧ (∀ b, .ref b ∈ pending ∨ h[b]? = none → b ∈ T) ∧
      ∀ a ∈ T, InOrder (orderFrom h pending seen) a ∧ ∀ b, PointsTo (orderFrom h pending seen) a b → b ∈ T := by
  induction h, pending, seen using orderFrom.induct with
  | case1 h seen =>
    rw [orderFrom]
    refine ⟨{a | a ∈ seen ∨ h[a]? = none}, fun a => .inl, fun b hb => .inr (by simpa using hb), fun a ha => ?_⟩
    cases ha with
    | inl ha =>
      obtain ⟨horder, hpoints⟩ := hseen a ha
      exact ⟨horder, fun b hb => by simpa using hpoints b hb⟩
    | inr ha =>
      refine ⟨by rw [InOrder, ha, Option.map_none], fun b hb => ?_⟩
      obtain ⟨container, hcontainer, -⟩ := hb
      rw [ha] at hcontainer
      cases hcontainer
  | case2 h seen a pending ih =>
    rw [orderFrom]
    obtain ⟨T, hT, hpending, hclosed⟩ := ih (by simpa using hseen)
    exact ⟨T, hT, by simpa using hpending, hclosed⟩
  | case3 h seen r pending hr ih =>
    rw [orderFrom, dif_pos hr]
    obtain ⟨T, hT, hpending, hclosed⟩ := ih fun a ha => ⟨(hseen a ha).1, fun b hb => by
      have hcases := (hseen a ha).2 b hb
      grind⟩
    refine ⟨T, hT, fun b hb => ?_, hclosed⟩
    by_cases heq : b = r
    · exact heq ▸ hT r hr
    · exact hpending b (by simpa [heq] using hb)
  | case4 h seen r pending hr hnone ih =>
    rw [orderFrom_dangling hnone pending hr]
    obtain ⟨T, hT, hpending, hclosed⟩ := ih fun a ha => ⟨(hseen a ha).1, fun b hb => by
      have hcases := (hseen a ha).2 b hb
      grind⟩
    refine ⟨T, hT, fun b hb => hpending b ?_, hclosed⟩
    grind
  | case5 h seen r pending hr container hcontainer ih =>
    rw [orderFrom_visit hcontainer pending hr]
    have hlt : r < h.length := (List.getElem?_eq_some_iff.mp hcontainer).1
    have hnone (b : Nat) : (h.set r container.reordered)[b]? = none ↔ h[b]? = none := by
      simp only [List.getElem?_eq_none_iff, List.length_set]
    obtain ⟨T, hT, hpending, hclosed⟩ := ih fun a ha => by
      by_cases heq : a = r
      · subst heq
        refine ⟨inOrder_set h container a, fun b hb => .inr (.inl ?_)⟩
        obtain ⟨container', hcontainer', hmem⟩ := (pointsTo_set hcontainer).mp hb
        obtain rfl := Option.some.inj (hcontainer.symm.trans hcontainer')
        exact List.mem_append_left _ (List.mem_reverse.mpr (Container.mem_children_reordered.mpr hmem))
      · have hold : a ∈ seen := by simpa [heq] using ha
        refine ⟨?_, fun b hb => ?_⟩
        · rw [InOrder, List.getElem?_set_ne (Ne.symm heq)]
          exact (hseen a hold).1
        · have hcases := (hseen a hold).2 b ((pointsTo_set hcontainer).mp hb)
          rw [hnone]
          grind
    refine ⟨T, fun a ha => hT a (List.mem_cons_of_mem _ ha), fun b hb => ?_, hclosed⟩
    by_cases heq : b = r
    · exact heq ▸ hT r (List.mem_cons_self ..)
    · refine hpending b ?_
      rw [hnone]
      refine hb.imp_left fun hb => List.mem_append_right _ ?_
      simpa [heq] using hb

/-- All that a value leads to is in order then. -/
theorem orderInPlace_orders (h : Heap A) (value : Value A) {r : Nat}
    (hr : r ∈ reached (graph (orderInPlace h value)) value.toSum) : InOrder (orderInPlace h value) r := by
  obtain ⟨T, _, hpending, hclosed⟩ := orderFrom_orders h [value] [] fun a ha => absurd ha List.not_mem_nil
  refine (hclosed r ?_).1
  refine GraphCopy.reached_subset (fun r hr => hpending r (.inl ?_)) (fun a ha n hn l b hb => ?_) hr
  · cases value with
    | atom a => cases hr
    | ref r' =>
      obtain rfl := Sum.inr.inj hr
      exact List.mem_singleton_self _
  · obtain ⟨container, hcontainer, rfl⟩ := Option.map_eq_some_iff.mp hn
    exact (hclosed a ha).2 b ⟨container, hcontainer, Container.mem_children_of_field hb⟩

end MinionAgent.JsObject
