import MinionAgent.Llm.ArgumentObject
import MinionAgent.Llm.StructuredClone

/-!
# MinionAgent.Llm.PreparedClone

`PreparedValue::structured_clone` of the Rust binding (`tools/prepared.rs`):
`copy`, depth first, over shared argument objects and arrays.

* `copy`, `structuredClone` — the recursion, by its depth;
* `copy_returns` — each call completes the containers that it makes;
* `structuredClone_spec` — what the result is;
* `structured_clone_isomorphism` — what both bindings keep.
-/

namespace MinionAgent.Rust.Prepared

open PropertyOrder
open GraphCopy (Graph Growing Kind Node Paired)

/-- A prepared value: a handle, or anything else. -/
abbrev PreparedValue (A : Type) : Type := JsObject.Value A

/-- What a handle leads to. -/
inductive Cell (A : Type)
  | object (object : ArgumentObject (PreparedValue A))
  | array (values : List (PreparedValue A))

variable {A : Type}

namespace Cell

/-- `ArgumentObjectRef::new()`, or `ArgumentArray::default()`. -/
def fresh : Cell A → Cell A
  | object _ => object {}
  | array _ => array []

/-- `iter`. -/
def iter : Cell A → List (Option Units × PreparedValue A)
  | object o => o.iter.map fun item => (some item.1, item.2)
  | array values => values.map fun value => (none, value)

/-- `insert`, or `push`. -/
def insert : Cell A → Option Units × PreparedValue A → Cell A
  | object o, (some key, value) => object (o.insert key value)
  | array values, (_, value) => array (values ++ [value])
  | cell, (none, _) => cell

def node : Cell A → Node Nat Kind (Units ⊕ Nat) A
  | object o => .object (o.iter.map (Prod.map id JsObject.Value.toSum))
  | array values => .array (values.map JsObject.Value.toSum)

end Cell

/-- The heap and the variable `memo` of `structured_clone`; the kind in a key of
`memo` is that of the cell. -/
structure CopyState (A : Type) where
  heap : List (Cell A)
  memo : List (Nat × Nat)

/-- One round of the loops of `copy`, with its own call. -/
def fill (call : PreparedValue A → CopyState A → Option (CopyState A × PreparedValue A)) (t : Nat) (s : CopyState A)
    (e : Option Units × PreparedValue A) : Option (CopyState A) :=
  (call e.2 s).map fun (s, value) => { s with heap := s.heap.modify t (·.insert (e.1, value)) }

/-- `copy`, for so many calls within each other. -/
def copy : Nat → PreparedValue A → CopyState A → Option (CopyState A × PreparedValue A)
  | 0, _, _ => none
  | _ + 1, .atom a, s => some (s, .atom a)
  | depth + 1, .ref r, s =>
    match s.memo.lookup r with
    | some t => some (s, .ref t)
    | none =>
      s.heap[r]?.bind fun cell =>
        (cell.iter.foldlM (fill (copy depth) s.heap.length)
          ⟨s.heap ++ [cell.fresh], (r, s.heap.length) :: s.memo⟩).map fun s' => (s', .ref s.heap.length)

/-- `structured_clone`; no container is entered twice, so that the calls are no
deeper than there are containers. -/
def structuredClone (heap : List (Cell A)) (value : PreparedValue A) : Option (List (Cell A) × PreparedValue A) :=
  (copy (heap.length + 1) value ⟨heap, []⟩).map fun (s, value) => (s.heap, value)

/-! ## Filling -/

/-- Some plain map has the items of an object. -/
def Cell.Holds : Cell A → Prop
  | .object o => ∃ plain, o.Holds plain
  | .array _ => True

namespace Cell

theorem holds_fresh (cell : Cell A) : cell.fresh.Holds := by
  cases cell with
  | object object => exact ⟨[], ArgumentObject.holds_empty⟩
  | array values => exact trivial

theorem Holds.insert {cell : Cell A} (h : cell.Holds) (e : Option Units × PreparedValue A) : (cell.insert e).Holds := by
  obtain ⟨key, value⟩ := e
  cases cell with
  | array values => cases key <;> exact trivial
  | object object =>
    cases key with
    | none => exact h
    | some key =>
      obtain ⟨plain, hplain⟩ := h
      exact ⟨_, hplain.insert key value⟩

/-- The keys of an object are different, and in ECMAScript order. -/
theorem holds_iter {object : ArgumentObject (PreparedValue A)} (h : (Cell.object object).Holds) :
    (object.iter.map Prod.fst).Nodup ∧ ordered arrayIndex object.iter = object.iter := by
  obtain ⟨plain, hplain⟩ := h
  rw [hplain.iter_eq]
  exact ⟨nodup_ordered hplain.nodup, ordered_idem plain⟩

theorem foldl_insert_array (values : List (PreparedValue A)) (es : List (Option Units × PreparedValue A)) :
    es.foldl insert (array values) = array (values ++ es.map Prod.snd) := by
  induction es generalizing values with
  | nil => simp
  | cons e es ih =>
    have hinsert : (array values).insert e = array (values ++ [e.2]) := by
      obtain ⟨key, value⟩ := e
      cases key <;> rfl
    rw [List.foldl_cons, hinsert, ih, List.map_cons, List.append_assoc, List.singleton_append]

/-- Items of different keys, inserted in turn, are those of the object. -/
theorem foldl_insert_object {pairs : List (Units × PreparedValue A)} (hpairs : (pairs.map Prod.fst).Nodup) :
    ∃ object : ArgumentObject (PreparedValue A), object.Holds pairs ∧
      (pairs.map fun item => (some item.1, item.2)).foldl insert (Cell.object {}) = Cell.object object := by
  have hinsert (o : ArgumentObject (PreparedValue A)) (plain : List (Units × PreparedValue A)) (ho : o.Holds plain) :
      ∃ object : ArgumentObject (PreparedValue A),
        object.Holds (pairs.foldl (fun items item => put items item.1 item.2) plain) ∧
          (pairs.map fun item => (some item.1, item.2)).foldl insert (Cell.object o) = Cell.object object := by
    induction pairs generalizing o plain with
    | nil => exact ⟨o, ho, rfl⟩
    | cons item pairs ih => exact ih (List.nodup_cons.mp hpairs).2 _ _ (ho.insert item.1 item.2)
  obtain ⟨object, hobject, heq⟩ := hinsert {} [] ArgumentObject.holds_empty
  rw [foldl_put_new hpairs (by simp), List.nil_append] at hobject
  exact ⟨object, hobject, heq⟩

/-- A fresh container with the copies of all entries is a copy. -/
theorem paired_foldl_insert {cell : Cell A} (h : cell.Holds) {memo : List (Nat × Nat)}
    {es : List (Option Units × PreparedValue A)} (hes : List.Forall₂ (JsObject.PairedEntry memo) cell.iter es) :
    cell.node.Paired memo (es.foldl insert cell.fresh).node := by
  cases cell with
  | object o =>
    obtain ⟨pairs, rfl, hkeys, hpairs⟩ := JsObject.exists_items hes
    have hnodup : (pairs.map Prod.fst).Nodup := hkeys ▸ (holds_iter h).1
    obtain ⟨object, hobject, heq⟩ := foldl_insert_object hnodup
    have hnode : (Cell.object object).node = Node.object (pairs.map (Prod.map id JsObject.Value.toSum)) := by
      rw [node, hobject.iter_eq]
      refine (GraphCopy.object_perm ((ordered_perm pairs).map _).symm ?_).symm
      rw [List.map_map]
      exact hnodup
    rw [fresh, heq, hnode]
    exact GraphCopy.paired_object hpairs
  | array values =>
    rw [fresh, foldl_insert_array, List.nil_append]
    exact JsObject.paired_values hes

end Cell

/-! ## Copying -/

/-- The copies made so far. -/
structure Copies (h : List (Cell A)) (s : CopyState A) (opened : Set Nat) : Prop where
  growing : Growing Cell.node h s.heap s.memo opened
  holds : ∀ cell ∈ s.heap, cell.Holds

namespace Copies

variable {h : List (Cell A)} {s : CopyState A} {opened : Set Nat}

theorem allocate (hs : Copies h s opened) {r : Nat} (hr : r < h.length) (hnew : s.memo.lookup r = none)
    (cell : Cell A) : Copies h ⟨s.heap ++ [cell.fresh], (r, s.heap.length) :: s.memo⟩ (insert r opened) := by
  refine ⟨hs.growing.allocate hr hnew cell.fresh, fun c hc => ?_⟩
  cases List.mem_append.mp hc with
  | inl hc => exact hs.holds c hc
  | inr hc => exact List.mem_singleton.mp hc ▸ cell.holds_fresh

theorem modify (hs : Copies h s opened) {r t : Nat} (hmem : (r, t) ∈ s.memo) (hr : r ∈ opened)
    (e : Option Units × PreparedValue A) : Copies h { s with heap := s.heap.modify t (·.insert e) } opened := by
  refine ⟨hs.growing.modify hmem hr _, fun c hc => ?_⟩
  obtain ⟨i, hi⟩ := List.getElem?_of_mem hc
  rw [List.getElem?_modify] at hi
  obtain ⟨c', hc', rfl⟩ := Option.map_eq_some_iff.mp hi
  have hholds := hs.holds c' (List.mem_of_getElem? hc')
  split
  · exact hholds.insert e
  · exact hholds

end Copies

/-- A call of `copy` pairs its value with a copy, completes the containers that
it makes, and leaves the others. -/
def Returns (h : List (Cell A)) (opened : Set Nat) (s : CopyState A) (value : PreparedValue A)
    (result : Option (CopyState A × PreparedValue A)) : Prop :=
  ∃ s' value', result = some (s', value') ∧ Copies h s' opened ∧ s.memo <:+ s'.memo ∧
    Paired s'.memo value.toSum value'.toSum ∧ ∀ t < s.heap.length, s'.heap[t]? = s.heap[t]?

/-- References are to containers of the heap. -/
def Closed (h : List (Cell A)) : Prop := ∀ cell ∈ h, ∀ e ∈ cell.iter, ∀ r, e.2 = .ref r → r < h.length

/-- The entries of a container, given calls that return. -/
theorem entries_growing {h : List (Cell A)} {opened : Set Nat} {call : PreparedValue A → CopyState A →
    Option (CopyState A × PreparedValue A)} {memo₀ : List (Nat × Nat)}
    (hcall : ∀ value s, (∀ r, value = .ref r → r < h.length) → memo₀ <:+ s.memo → Copies h s opened →
      Returns h opened s value (call value s))
    {r t : Nat} (hr : r ∈ opened) (hmem : (r, t) ∈ memo₀) {es : List (Option Units × PreparedValue A)}
    (hes : ∀ e ∈ es, ∀ r, e.2 = .ref r → r < h.length) {s : CopyState A} (hs : Copies h s opened)
    (hmemo : memo₀ <:+ s.memo) {cell : Cell A} (ht : s.heap[t]? = some cell) :
    ∃ s' es', es.foldlM (fill call t) s = some s' ∧ Copies h s' opened ∧
      s.memo <:+ s'.memo ∧ List.Forall₂ (JsObject.PairedEntry s'.memo) es es' ∧
      s'.heap[t]? = some (es'.foldl Cell.insert cell) ∧
      ∀ t' < s.heap.length, t' ≠ t → s'.heap[t']? = s.heap[t']? := by
  induction es generalizing s cell with
  | nil => exact ⟨s, [], rfl, hs, List.suffix_refl _, .nil, ht, fun _ _ _ => rfl⟩
  | cons e es ih =>
    obtain ⟨s₁, value, hreturn, hs₁, hmemo₁, hpaired, hframe⟩ :=
      hcall e.2 s (hes e (List.mem_cons_self ..)) hmemo hs
    have hmem₁ : (r, t) ∈ s₁.memo := (hmemo.trans hmemo₁).subset hmem
    have ht₁ : (s₁.heap.modify t (·.insert (e.1, value)))[t]? = some (cell.insert (e.1, value)) := by
      rw [List.getElem?_modify_eq, hframe t (List.getElem?_eq_some_iff.mp ht).1, ht]
      rfl
    obtain ⟨s', es', hfold, hs', hmemo', hpairs, hfilled, hrest⟩ := ih
      (fun e' he' => hes e' (List.mem_cons_of_mem _ he')) (hs₁.modify hmem₁ hr (e.1, value))
      (hmemo.trans hmemo₁) ht₁
    refine ⟨s', (e.1, value) :: es', ?_, hs', hmemo₁.trans hmemo', .cons ⟨rfl, hpaired.mono hmemo'.subset⟩ hpairs,
      hfilled, fun t' ht' hne => ?_⟩
    · rw [List.foldlM_cons, fill, hreturn]
      exact hfold
    · have hlength : t' < s₁.heap.length := by
        have hsome := hframe t' ht'
        rw [List.getElem?_eq_getElem ht'] at hsome
        exact (List.getElem?_eq_some_iff.mp hsome).1
      rw [hrest t' (by rw [List.length_modify]; exact hlength) hne, List.getElem?_modify_ne _ _ hne.symm, hframe t' ht']

theorem copy_known {s : CopyState A} {r t : Nat} (h : s.memo.lookup r = some t) (depth : Nat) :
    copy (depth + 1) (.ref r) s = some (s, .ref t) := by
  rw [copy, h]

theorem copy_new {s : CopyState A} {r : Nat} (h : s.memo.lookup r = none) {cell : Cell A}
    (hr : s.heap[r]? = some cell) (depth : Nat) :
    copy (depth + 1) (.ref r) s =
      (cell.iter.foldlM (fill (copy depth) s.heap.length)
        ⟨s.heap ++ [cell.fresh], (r, s.heap.length) :: s.memo⟩).map fun s' => (s', .ref s.heap.length) := by
  rw [copy, h, hr]
  rfl

/-- `copy` returns: each call within another has one container more. -/
theorem copy_returns {h : List (Cell A)} (hclosed : Closed h) (hholds : ∀ cell ∈ h, cell.Holds) {depth : Nat}
    {opened : Set Nat} {s : CopyState A} (hs : Copies h s opened) (hdepth : h.length < depth + s.memo.length)
    {value : PreparedValue A} (hvalue : ∀ r, value = .ref r → r < h.length) :
    Returns h opened s value (copy depth value s) := by
  induction depth generalizing opened s value with
  | zero =>
    have hlength := hs.growing.length_memo_le
    omega
  | succ depth ih =>
    cases value with
    | atom a => exact ⟨s, .atom a, rfl, hs, List.suffix_refl _, .inl rfl, fun _ _ => rfl⟩
    | ref r =>
      have hlt := hvalue r rfl
      have hr : h[r]? = some h[r] := List.getElem?_eq_getElem hlt
      cases hlookup : s.memo.lookup r with
      | some t =>
        rw [copy_known hlookup]
        exact ⟨s, .ref t, rfl, hs, List.suffix_refl _, .inr (GraphCopy.mem_of_lookup hlookup), fun _ _ => rfl⟩
      | none =>
        have hcell : h[r] ∈ h := List.getElem_mem hlt
        have hmem : (r, s.heap.length) ∈ (r, s.heap.length) :: s.memo := List.mem_cons_self ..
        have hcall (value : PreparedValue A) (s₁ : CopyState A) (hvalue : ∀ r, value = .ref r → r < h.length)
            (hmemo : (r, s.heap.length) :: s.memo <:+ s₁.memo) (hs₁ : Copies h s₁ (insert r opened)) :
            Returns h (insert r opened) s₁ value (copy depth value s₁) := by
          have hlength := hmemo.length_le
          rw [List.length_cons] at hlength
          exact ih hs₁ (by omega) hvalue
        obtain ⟨s', es', hfold, hs', hmemo, hpairs, hfilled, hframe⟩ :=
          entries_growing hcall (Set.mem_insert r opened) hmem (hclosed _ hcell) (hs.allocate hlt hlookup h[r])
            (List.suffix_refl _) List.getElem?_concat_length
        rw [copy_new hlookup ((hs.growing.left r hlt).trans hr)]
        have hmem' := hmemo.subset hmem
        have hclose := hs'.growing.close hmem' hr hfilled (Cell.paired_foldl_insert (hholds _ hcell) hpairs)
        refine ⟨s', .ref s.heap.length, ?_, ⟨hclose.mono fun r' hr' => hr'.1.resolve_left hr'.2, hs'.holds⟩,
          (List.suffix_cons _ _).trans hmemo, .inr hmem', fun t ht => ?_⟩
        · rw [hfold, Option.map_some]
        · rw [hframe t (by simp only [List.length_append]; omega) (Nat.ne_of_lt ht), List.getElem?_append_left ht]

/-- What prepared arguments are: a value in a heap that holds all that it refers
to. -/
structure ArgumentGraph (A : Type) where
  heap : List (Cell A)
  value : PreparedValue A
  closed : Closed heap
  holds : ∀ cell ∈ heap, cell.Holds
  root : ∀ r, value = .ref r → r < heap.length

def graph (heap : List (Cell A)) : Graph Nat Kind (Units ⊕ Nat) A := GraphCopy.nodes Cell.node heap

/-- The clone is one, its objects are in order, and the containers there were are
left. -/
theorem structuredClone_spec (g : ArgumentGraph A) :
    ∃ h' v', structuredClone g.heap g.value = some (h', v') ∧
      JsObject.IsClone (graph g.heap) (graph h') g.value.toSum v'.toSum g.heap.length ∧
      (∀ o : ArgumentObject (PreparedValue A), Cell.object o ∈ h' → ordered arrayIndex o.iter = o.iter) ∧
      ∀ r < g.heap.length, h'[r]? = g.heap[r]? := by
  have hstart : Copies g.heap ⟨g.heap, []⟩ ∅ := ⟨.nil _ _, g.holds⟩
  have hreturns : Returns g.heap ∅ ⟨g.heap, []⟩ g.value (copy (g.heap.length + 1) g.value ⟨g.heap, []⟩) :=
    copy_returns g.closed g.holds hstart (Nat.lt_succ_self _) g.root
  obtain ⟨s, value, hcopy, hs, -, hpaired, -⟩ := hreturns
  refine ⟨s.heap, value, ?_, JsObject.isClone_of_growing hs.growing hpaired, fun o ho => ?_, hs.growing.left⟩
  · rw [structuredClone, hcopy, Option.map_some]
  · exact (Cell.holds_iter (hs.holds _ ho)).2

end MinionAgent.Rust.Prepared

namespace MinionAgent

open GraphCopy (reached)

/-- Both bindings clone the graph of a value: they return, with a clone of which
each object enumerates in ECMAScript order, and leave each container as it was. -/
theorem structured_clone_isomorphism :
    (∀ (A : Type) (g : JsObject.ArgumentGraph A), ∃ h' v',
      JsObject.structuredClone g.heap g.value = some (h', v') ∧
        JsObject.IsClone (JsObject.graph g.heap) (JsObject.graph h') g.value.toSum v'.toSum g.heap.length ∧
        (∀ r ∈ reached (JsObject.graph h') v'.toSum,
          (∃ items, h'[r]? = some (.jsObject items) ∧ JsObject.esOrder items = items) ∨
            ∃ values, h'[r]? = some (.list values)) ∧
        ∀ r < g.heap.length, h'[r]? = g.heap[r]?) ∧
    ∀ (A : Type) (g : Rust.Prepared.ArgumentGraph A), ∃ h' v',
      Rust.Prepared.structuredClone g.heap g.value = some (h', v') ∧
        JsObject.IsClone (Rust.Prepared.graph g.heap) (Rust.Prepared.graph h') g.value.toSum v'.toSum g.heap.length ∧
        (∀ o, Rust.Prepared.Cell.object o ∈ h' → PropertyOrder.ordered Rust.arrayIndex o.iter = o.iter) ∧
        ∀ r < g.heap.length, h'[r]? = g.heap[r]? :=
  ⟨fun _ => JsObject.structuredClone_spec, fun _ => Rust.Prepared.structuredClone_spec⟩

/-- An object that holds itself, one list under two keys, and an index. -/
def JsObject.sharedCycle : JsObject.ArgumentGraph Nat where
  heap :=
    [.jsObject [([0x31], .atom 5), ([0x61], .ref 0), ([0x62], .ref 1), ([0x63], .ref 1)], .list [.ref 0, .atom 7]]
  value := .ref 0
  closed := by simp [JsObject.Closed, JsObject.Container.children]
  distinctKeys := by simp [JsObject.DistinctKeys, JsObject.Container.keys]
  root := by simp

/-- The same object, as insertions leave it. -/
def Rust.Prepared.cyclicHeap : List (Rust.Prepared.Cell Nat) :=
  [.object (.run [.insert [0x61] (.ref 0), .insert [0x62] (.ref 1), .insert [0x31] (.atom 5), .insert [0x63] (.ref 1)]),
    .array [.ref 0, .atom 7]]

def Rust.Prepared.sharedCycle : Rust.Prepared.ArgumentGraph Nat where
  heap := cyclicHeap
  value := .ref 0
  closed := by
    have hvalues : ∀ cell ∈ cyclicHeap, ∀ e ∈ cell.iter, e.2 ∈ [.ref 0, .ref 1, .atom 5, .atom 7] := by decide
    intro cell hcell e he r hr
    have hvalue := hvalues cell hcell e he
    simp only [hr, List.mem_cons, JsObject.Value.ref.injEq, reduceCtorEq, List.not_mem_nil, or_false] at hvalue
    exact hvalue.elim (fun h => h ▸ Nat.two_pos) fun h => h ▸ Nat.one_lt_two
  holds := by
    intro cell hcell
    rcases List.mem_cons.mp hcell with rfl | htail
    · exact ⟨_, Rust.ArgumentObject.holds_run _⟩
    · rw [List.mem_singleton.mp htail]
      trivial
  root := by simp [cyclicHeap]

/-- Sharing and a cycle are cloned. -/
theorem structured_clone_isomorphism_cyclic :
    (∃ h' v', JsObject.structuredClone JsObject.sharedCycle.heap (.ref 0) = some (h', v') ∧
      JsObject.IsClone (JsObject.graph JsObject.sharedCycle.heap) (JsObject.graph h') (.inr 0) v'.toSum 2) ∧
    ∃ h' v', Rust.Prepared.structuredClone Rust.Prepared.sharedCycle.heap (.ref 0) = some (h', v') ∧
      JsObject.IsClone (Rust.Prepared.graph Rust.Prepared.sharedCycle.heap) (Rust.Prepared.graph h') (.inr 0)
        v'.toSum 2 := by
  obtain ⟨h, v, hreturn, hclone, -⟩ := structured_clone_isomorphism.1 Nat JsObject.sharedCycle
  obtain ⟨h', v', hreturn', hclone', -⟩ := structured_clone_isomorphism.2 Nat Rust.Prepared.sharedCycle
  exact ⟨⟨h, v, hreturn, hclone⟩, h', v', hreturn', hclone'⟩

end MinionAgent
