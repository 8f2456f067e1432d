import MinionAgent.Llm.ObjectGraph

/-!
# MinionAgent.Llm.GraphReachable

`_children` and `_graph_reachable` (`llm/js_object.py`): the containers at or
below a `JsObject` or a `JsArray`, by two traversals of the same kind.

* `Resequenced` — heaps that differ in the order of keys;
* `walk`, `walk_spec` — a traversal, which re-sequences what a `JsArray` exposes;
* `graphReachable_spec` — the containers found, and the heap then.
-/

namespace MinionAgent.JsObject

open PropertyOrder
open GraphCopy (reached)

variable {A : Type}

/-! ## Heaps that differ in the order of keys -/

/-- A heap, of which containers of `K` may be re-sequenced. -/
structure Resequenced (K : Set Nat) (h h' : Heap A) : Prop where
  length : h'.length = h.length
  cell : ∀ r, h'[r]? = h[r]? ∨ r ∈ K ∧ h'[r]? = h[r]?.map Container.reordered

/-- A set of containers that holds all they refer to. -/
def ClosedIn (h : Heap A) (K : Set Nat) : Prop := ∀ a ∈ K, ∀ b, PointsTo h a b → b ∈ K

theorem DistinctKeys.get {h : Heap A} (hkeys : DistinctKeys h) {r : Nat} {container : Container A}
    (hr : h[r]? = some container) : container.keys.Nodup :=
  hkeys container (List.mem_of_getElem? hr)

namespace Resequenced

variable {K : Set Nat} {h h' h'' : Heap A}

theorem refl (K : Set Nat) (h : Heap A) : Resequenced K h h := ⟨rfl, fun _ => .inl rfl⟩

theorem trans (hfirst : Resequenced K h h') (hsecond : Resequenced K h' h'') : Resequenced K h h'' := by
  refine ⟨hsecond.length.trans hfirst.length, fun r => ?_⟩
  obtain hsame | ⟨hr, hsecond⟩ := hsecond.cell r
  · rw [hsame]
    exact hfirst.cell r
  · refine .inr ⟨hr, ?_⟩
    obtain hsame | ⟨-, hfirst⟩ := hfirst.cell r
    · rw [hsecond, hsame]
    · rw [hsecond, hfirst, Option.map_map]
      exact congrFun (congrArg Option.map (funext Container.reordered_reordered)) _

/-- What a container was, it is, or is re-sequenced. -/
theorem get (h₁ : Resequenced K h h') {r : Nat} {container : Container A} (hr : h[r]? = some container) :
    ∃ container', h'[r]? = some container' ∧ (container' = container ∨ container' = container.reordered) := by
  obtain hcell | ⟨-, hcell⟩ := h₁.cell r
  · exact ⟨container, hcell.trans hr, .inl rfl⟩
  · exact ⟨container.reordered, by rw [hcell, hr, Option.map_some], .inr rfl⟩

theorem pointsTo_iff (h₁ : Resequenced K h h') (a b : Nat) : PointsTo h' a b ↔ PointsTo h a b := by
  unfold PointsTo
  obtain hcell | ⟨-, hcell⟩ := h₁.cell a
  · rw [hcell]
  · rw [hcell]
    cases h[a]? with
    | none => simp
    | some container => simp [Container.mem_children_reordered]

theorem closedIn (h₁ : Resequenced K h h') {S : Set Nat} (hS : ClosedIn h S) : ClosedIn h' S :=
  fun a ha b hab => hS a ha b ((h₁.pointsTo_iff a b).mp hab)

theorem distinctKeys (h₁ : Resequenced K h h') (hkeys : DistinctKeys h) : DistinctKeys h' := by
  intro container hmem
  obtain ⟨r, hr⟩ := List.getElem?_of_mem hmem
  have hlt : r < h.length := h₁.length ▸ (List.getElem?_eq_some_iff.mp hr).1
  have hold : h[r]? = some h[r] := List.getElem?_eq_getElem hlt
  obtain ⟨container', hcontainer', hcases⟩ := h₁.get hold
  obtain rfl := Option.some.inj (hr.symm.trans hcontainer')
  obtain rfl | rfl := hcases
  · exact hkeys.get hold
  · exact Container.keys_reordered (hkeys.get hold)

theorem graph_eq (h₁ : Resequenced K h h') (hkeys : DistinctKeys h) : graph h' = graph h :=
  funext fun r => graph_eq_of_reordered hkeys ((h₁.cell r).imp_right And.right)

/-- A value that leads into `K` re-sequences no others. -/
theorem orderInPlace {value : Value A} (hK : ClosedIn h K) (hvalue : ∀ b, value = .ref b → b ∈ K) :
    Resequenced K h (orderInPlace h value) := by
  refine ⟨length_orderFrom h [value] [], orderFrom_spec h [value] [] (fun a b ha => hK a ha b) fun b hb => ?_⟩
  exact hvalue b (List.mem_singleton.mp hb).symm

theorem foldl_orderInPlace {values : List (Value A)} (hK : ClosedIn h K)
    (hvalues : ∀ b, .ref b ∈ values → b ∈ K) :
    Resequenced K h (values.foldl JsObject.orderInPlace h) := by
  induction values generalizing h with
  | nil => exact .refl K h
  | cons value values ih =>
    have hfirst : Resequenced K h (JsObject.orderInPlace h value) :=
      .orderInPlace hK fun b hb => hvalues b (hb ▸ List.mem_cons_self ..)
    exact hfirst.trans (ih (hfirst.closedIn hK) fun b hb => hvalues b (List.mem_cons_of_mem _ hb))

end Resequenced

/-! ## The traversals -/

/-- The heap when `_children` has gone through a container: a `JsArray` orders
what it exposes. -/
def exposed (arrays : List Nat) (h : Heap A) (r : Nat) : Container A → Heap A
  | .dict _ | .jsObject _ => h
  | .list values => if r ∈ arrays then values.foldl orderInPlace h else h

theorem length_foldl_orderInPlace (h : Heap A) (values : List (Value A)) :
    (values.foldl orderInPlace h).length = h.length := by
  induction values generalizing h with
  | nil => rfl
  | cons value values ih => rw [List.foldl_cons, ih, orderInPlace, length_orderFrom]

theorem length_exposed (arrays : List Nat) (h : Heap A) (r : Nat) (container : Container A) :
    (exposed arrays h r container).length = h.length := by
  cases container with
  | dict items => rfl
  | jsObject items => rfl
  | list values =>
    rw [exposed]
    split
    · exact length_foldl_orderInPlace h values
    · rfl

/-- A loop of `_graph_reachable`: the heap then, and the containers visited, the
last first.  The top of `pending` is first. -/
def walk (arrays : List Nat) (h : Heap A) (pending : List (Value A)) (seen : List Nat) : Heap A × List Nat :=
  match pending with
  | [] => (h, seen)
  | .atom _ :: pending => walk arrays h pending seen
  | .ref r :: pending =>
    if _hseen : r ∈ seen then walk arrays h pending seen
    else
      match _hr : h[r]? with
      | none => walk arrays h pending seen
      | some container =>
        walk arrays (exposed arrays h r container) (container.children.reverse ++ pending) (r :: seen)
termination_by (unseen h seen, pending.length)
decreasing_by
  all_goals first
    | exact .right _ (Nat.lt_succ_self _)
    | exact .left _ _ (unseen_lt (length_exposed ..) (List.getElem?_eq_some_iff.mp _hr).1 _hseen)

/-- A container is a `JsObject` or a `JsArray`. -/
def Container.isGraph (arrays : List Nat) (r : Nat) : Container A → Bool
  | dict _ => false
  | jsObject _ => true
  | list _ => arrays.contains r

/-- `isinstance(item, (JsObject, JsArray))`. -/
def isGraph (arrays : List Nat) (h : Heap A) (r : Nat) : Bool := h[r]?.any (·.isGraph arrays r)

/-- `_graph_reachable`. -/
def graphReachable (arrays : List Nat) (h : Heap A) (value : Value A) : Heap A × List Nat :=
  let (h, seen) := walk arrays h [value] []
  walk arrays h ((seen.filter (isGraph arrays h)).map .ref) []

theorem walk_visit {arrays : List Nat} {h : Heap A} {r : Nat} {container : Container A} (hr : h[r]? = some container)
    (pending : List (Value A)) {seen : List Nat} (hseen : r ∉ seen) :
    walk arrays h (.ref r :: pending) seen =
      walk arrays (exposed arrays h r container) (container.children.reverse ++ pending) (r :: seen) := by
  rw [walk, dif_neg hseen]
  split
  · next hnone => rw [hr] at hnone; cases hnone
  · next container' hsome => rw [Option.some.inj (hr.symm.trans hsome)]

/-! ## What is visited -/

theorem exposed_resequenced {arrays : List Nat} {h : Heap A} {K : Set Nat} (hK : ClosedIn h K) {r : Nat}
    {container : Container A} (hr : h[r]? = some container) (harray : r ∈ arrays → ∀ b, PointsTo h r b → b ∈ K) :
    Resequenced K h (exposed arrays h r container) := by
  cases container with
  | dict items => exact .refl K h
  | jsObject items => exact .refl K h
  | list values =>
    rw [exposed]
    split
    · next hmem => exact .foldl_orderInPlace hK fun b hb => harray hmem b ⟨_, hr, hb⟩
    · exact .refl K h

/-- A traversal visits what is pending and all that leads to, and no more; it
re-sequences in a set that holds what is exposed. -/
theorem walk_spec {arrays : List Nat} (h : Heap A) (pending : List (Value A)) (seen : List Nat) {S K : Set Nat}
    (hS : ClosedIn h S) (hbound : ∀ a ∈ S, a < h.length) (hpending : ∀ b, .ref b ∈ pending → b ∈ S)
    (hK : ClosedIn h K) (harrays : ∀ a ∈ S, a ∈ arrays → ∀ b, PointsTo h a b → b ∈ K)
    (hseen : ∀ a ∈ seen, ∀ b, PointsTo h a b → b ∈ seen ∨ .ref b ∈ pending) :
    Resequenced K h (walk arrays h pending seen).1 ∧
      (∀ a ∈ (walk arrays h pending seen).2, a ∈ seen ∨ a ∈ S) ∧
      (∀ a, a ∈ seen ∨ .ref a ∈ pending → a ∈ (walk arrays h pending seen).2) ∧
      (∀ a ∈ (walk arrays h pending seen).2, ∀ b, PointsTo h a b → b ∈ (walk arrays h pending seen).2) ∧
      (seen.Nodup → (walk arrays h pending seen).2.Nodup) := by
  induction h, pending, seen using walk.induct arrays with
  | case1 h seen =>
    rw [walk]
    exact ⟨.refl K h, fun a ha => .inl ha, by simp, by simpa using hseen, id⟩
  | case2 h seen a pending ih =>
    rw [walk]
    simpa using ih hS hbound (fun b hb => hpending b (List.mem_cons_of_mem _ hb)) hK harrays (by simpa using hseen)
  | case3 h seen r pending hr ih =>
    rw [walk, dif_pos hr]
    obtain ⟨hheap, honly, hall, hrest⟩ := ih hS hbound (fun b hb => hpending b (List.mem_cons_of_mem _ hb)) hK harrays
      fun a ha b hb => by grind
    refine ⟨hheap, honly, fun a ha => hall a ?_, hrest⟩
    grind
  | case4 h seen r pending hr hnone ih =>
    have hlt := hbound r (hpending r (List.mem_cons_self ..))
    rw [List.getElem?_eq_getElem hlt] at hnone
    cases hnone
  | case5 h seen r pending hr container hcontainer ih =>
    have hrS := hpending r (List.mem_cons_self ..)
    have hexposed := exposed_resequenced hK hcontainer (harrays r hrS)
    have hpoints := hexposed.pointsTo_iff
    have hlength := hexposed.length
    rw [walk_visit hcontainer pending hr]
    have hchild {b : Nat} : Value.ref b ∈ container.children.reverse ++ pending ↔
        PointsTo h r b ∨ .ref b ∈ pending := by
      simp [PointsTo, hcontainer]
    obtain ⟨hheap, honly, hall, hrest, hnodup⟩ := ih (hexposed.closedIn hS) (by rwa [hlength])
      (fun b hb => (hchild.mp hb).elim (hS r hrS b) fun hb => hpending b (List.mem_cons_of_mem _ hb))
      (hexposed.closedIn hK) (fun a ha harray b hb => harrays a ha harray b ((hpoints a b).mp hb))
      fun a ha b hb => by
        rw [hpoints] at hb
        rw [hchild]
        grind
    refine ⟨hexposed.trans hheap, fun a ha => ?_, fun a ha => hall a ?_, fun a ha b hb => hrest a ha b ?_,
      fun hseen => ?_⟩
    · have hcases := honly a ha
      grind
    · rw [hchild]
      grind
    · exact (hpoints a b).mpr hb
    · exact hnodup (List.nodup_cons.mpr ⟨hr, hseen⟩)

theorem closedIn_reached {h : Heap A} (hkeys : DistinctKeys h) (value : A ⊕ Nat) :
    ClosedIn h (reached (graph h) value) := by
  intro a ha b ⟨container, hcontainer, hb⟩
  obtain ⟨l, hl⟩ := Container.exists_field_of_mem_children (hkeys.get hcontainer) hb
  exact GraphCopy.reached_field ha (congrArg (Option.map Container.node) hcontainer) hl (GraphCopy.reached_self _ b)

/-- A closed set that holds what the value refers to holds all it leads to. -/
theorem reached_subset_of_closedIn {h : Heap A} {S : Set Nat} (hS : ClosedIn h S) {value : A ⊕ Nat}
    (hvalue : ∀ r, value = .inr r → r ∈ S) : reached (graph h) value ⊆ S := by
  refine GraphCopy.reached_subset hvalue fun a ha n hn l b hb => ?_
  obtain ⟨container, hcontainer, rfl⟩ := Option.map_eq_some_iff.mp hn
  exact hS a ha b ⟨container, hcontainer, Container.mem_children_of_field hb⟩

theorem reached_lt {h : Heap A} (hclosed : Closed h) {value : Value A} (hroot : ∀ r, value = .ref r → r < h.length)
    {r : Nat} (hr : r ∈ reached (graph h) value.toSum) : r < h.length := by
  have hlt : ClosedIn h {r | r < h.length} := fun a _ b ⟨container, hcontainer, hb⟩ =>
    hclosed container (List.mem_of_getElem? hcontainer) b hb
  refine reached_subset_of_closedIn hlt (fun r' hr' => ?_) hr
  cases value with
  | atom a => cases hr'
  | ref r'' => exact hroot r' (congrArg Value.ref (Sum.inr.inj hr'))

theorem isGraph_resequenced {arrays : List Nat} {K : Set Nat} {h h' : Heap A} (hh : Resequenced K h h') (r : Nat) :
    isGraph arrays h' r = isGraph arrays h r := by
  unfold isGraph
  obtain hcell | ⟨-, hcell⟩ := hh.cell r
  · rw [hcell]
  · rw [hcell, Option.any_map]
    refine congrArg (fun p => h[r]?.any p) (funext fun container => ?_)
    cases container <;> rfl

/-- The containers at or below a `JsObject` or a `JsArray` that a value leads to. -/
def keptOf (arrays : List Nat) (h : Heap A) (value : A ⊕ Nat) : Set Nat :=
  {r | ∃ root ∈ reached (graph h) value, isGraph arrays h root = true ∧ r ∈ reached (graph h) (.inr root)}

theorem closedIn_keptOf {h : Heap A} (hkeys : DistinctKeys h) (arrays : List Nat) (value : A ⊕ Nat) :
    ClosedIn h (keptOf arrays h value) :=
  fun a ⟨root, hroot, hgraph, ha⟩ b hb => ⟨root, hroot, hgraph, closedIn_reached hkeys _ a ha b hb⟩

theorem keptOf_subset {h : Heap A} (hkeys : DistinctKeys h) (arrays : List Nat) (value : A ⊕ Nat) :
    keptOf arrays h value ⊆ reached (graph h) value := by
  intro r ⟨root, hroot, _, hr⟩
  refine reached_subset_of_closedIn (closedIn_reached hkeys value) (fun root' heq => ?_) hr
  exact Sum.inr.inj heq ▸ hroot

/-- `_graph_reachable` finds the containers at or below those of the graph, and
re-sequences no others. -/
theorem graphReachable_spec {arrays : List Nat} {h : Heap A} (hclosed : Closed h) (hkeys : DistinctKeys h)
    (harrays : ∀ r ∈ arrays, ∃ values, h[r]? = some (.list values)) {value : Value A}
    (hroot : ∀ r, value = .ref r → r < h.length) :
    Resequenced (keptOf arrays h value.toSum) h (graphReachable arrays h value).1 ∧
      (∀ r, r ∈ (graphReachable arrays h value).2 ↔ r ∈ keptOf arrays h value.toSum) ∧
      (graphReachable arrays h value).2.Nodup := by
  have hS := closedIn_reached hkeys value.toSum
  have hbound (a : Nat) (ha : a ∈ reached (graph h) value.toSum) : a < h.length := reached_lt hclosed hroot ha
  have hK := closedIn_keptOf hkeys arrays value.toSum
  have hexposed (a : Nat) (ha : a ∈ reached (graph h) value.toSum) (harray : a ∈ arrays) (b : Nat)
      (hb : PointsTo h a b) : b ∈ keptOf arrays h value.toSum := by
    obtain ⟨values, hvalues⟩ := harrays a harray
    refine hK a ⟨a, ha, ?_, GraphCopy.reached_self _ a⟩ b hb
    rw [isGraph, hvalues]
    exact List.contains_iff_mem.mpr harray
  have hvalue (b : Nat) (hb : .ref b ∈ [value]) : b ∈ reached (graph h) value.toSum := by
    obtain rfl := List.mem_singleton.mp hb
    exact GraphCopy.reached_self _ b
  obtain ⟨hfirst, honly, hall, hpoints, hnodup⟩ := walk_spec h [value] [] hS hbound hvalue hK hexposed (by simp)
  have hseen (r : Nat) : r ∈ (walk arrays h [value] []).2 ↔ r ∈ reached (graph h) value.toSum := by
    refine ⟨fun hr => by simpa using honly r hr, fun hr => ?_⟩
    refine reached_subset_of_closedIn (S := {r | r ∈ (walk arrays h [value] []).2}) hpoints (fun r' hr' => ?_) hr
    refine hall r' (.inr ?_)
    cases value with
    | atom a => cases hr'
    | ref r'' => exact Sum.inr.inj hr' ▸ List.mem_singleton_self _
  -- the second traversal starts at the containers of the graph
  have hroots (r : Nat) : .ref r ∈ ((walk arrays h [value] []).2.filter
      (isGraph arrays (walk arrays h [value] []).1)).map (@Value.ref A) ↔
        r ∈ reached (graph h) value.toSum ∧ isGraph arrays h r = true := by
    simp [hseen, isGraph_resequenced hfirst]
  have hsub := keptOf_subset hkeys arrays value.toSum
  obtain ⟨hsecond, honly', hall', hpoints', hnodup'⟩ := walk_spec (walk arrays h [value] []).1 _ []
    (hfirst.closedIn hK) (fun a ha => hfirst.length.symm ▸ hbound a (hsub ha))
    (fun b hb => ⟨b, ((hroots b).mp hb).1, ((hroots b).mp hb).2, GraphCopy.reached_self _ b⟩) (hfirst.closedIn hK)
    (fun a ha harray b hb => hexposed a (hsub ha) harray b ((hfirst.pointsTo_iff a b).mp hb)) (by simp)
  refine ⟨hfirst.trans hsecond, fun r => ⟨fun hr => by simpa using honly' r hr, fun hr => ?_⟩, hnodup' List.nodup_nil⟩
  obtain ⟨root, hroot, hgraph, hr⟩ := hr
  refine reached_subset_of_closedIn (S := {r | r ∈ (graphReachable arrays h value).2})
    (fun a ha b hb => hpoints' a ha b ((hfirst.pointsTo_iff a b).mpr hb)) (fun root' heq => ?_) hr
  exact Sum.inr.inj heq ▸ hall' root (.inr ((hroots root).mpr ⟨hroot, hgraph⟩))

end MinionAgent.JsObject
