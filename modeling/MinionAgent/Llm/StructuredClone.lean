import MinionAgent.Llm.ObjectGraph

/-!
# MinionAgent.Llm.StructuredClone

`structured_clone` (`llm/js_object.py`): a worklist of containers whose copies
are linked before they are filled, and `order_in_place` of the result.

* `structuredClone` — the loop, in rounds;
* `Cloning`, `child_cloning`, `entries_cloning`, `cloneLoop_cloning` — the
  copies made so far;
* `IsClone`, `structuredClone_spec` — what the result is.
-/

namespace MinionAgent.JsObject

open PropertyOrder
open GraphCopy (Graph Growing Kind Node Paired follow reached)

variable {A : Type}

/-! ## The loop -/

namespace Container

/-- `fresh`. -/
def fresh : Container A → Container A
  | dict _ | jsObject _ => jsObject []
  | list _ => list []

/-- What the loop goes through: `dict.items`, or the elements of a list, whose
positions it does not use. -/
def entries : Container A → List (Option Key × Value A)
  | dict items | jsObject items => items.map fun item => (some item.1, item.2)
  | list values => values.map fun value => (none, value)

/-- `dict.__setitem__`, or `list.append`. -/
def assign : Container A → Option Key × Value A → Container A
  | dict items, (some key, value) => dict (put items key value)
  | jsObject items, (some key, value) => jsObject (put items key value)
  | list values, (_, value) => list (values ++ [value])
  | container, (none, _) => container

end Container

/-- The variables of `structured_clone`, with the heap; the last of `pending` is
first. -/
structure Clone (A : Type) where
  heap : Heap A
  memo : List (Nat × Nat)
  pending : List Nat

namespace Clone

/-- The copy of a child, which is made where there is none. -/
def child (s : Clone A) : Value A → Clone A × Value A
  | .atom a => (s, .atom a)
  | .ref r =>
    match s.memo.lookup r with
    | some t => (s, .ref t)
    | none =>
      match s.heap[r]? with
      | none => (s, .ref r)
      | some container =>
        ({ heap := s.heap ++ [container.fresh],
           memo := (r, s.heap.length) :: s.memo,
           pending := r :: s.pending },
          .ref s.heap.length)

theorem child_known {s : Clone A} {r t : Nat} (h : s.memo.lookup r = some t) : s.child (.ref r) = (s, .ref t) := by
  simp only [child, h]

theorem child_new {s : Clone A} {r : Nat} (h : s.memo.lookup r = none) {container : Container A}
    (hr : s.heap[r]? = some container) :
    s.child (.ref r) =
      ({ heap := s.heap ++ [container.fresh],
         memo := (r, s.heap.length) :: s.memo,
         pending := r :: s.pending },
        .ref s.heap.length) := by
  simp only [child, h, hr]

/-- One round of the inner loop. -/
def entry (target : Nat) (s : Clone A) (entry : Option Key × Value A) : Clone A :=
  let (s, value) := s.child entry.2
  { s with heap := s.heap.modify target (·.assign (entry.1, value)) }

end Clone

/-- The outer loop, for so many rounds. -/
def cloneLoop : Nat → Clone A → Option (Clone A)
  | rounds, s =>
    match s.pending with
    | [] => some s
    | r :: pending =>
      match rounds with
      | 0 => none
      | rounds + 1 =>
        (s.memo.lookup r).bind fun target => s.heap[r]?.bind fun source =>
          cloneLoop rounds (source.entries.foldl (Clone.entry target) { s with pending := pending })

theorem cloneLoop_nil {s : Clone A} (h : s.pending = []) (rounds : Nat) : cloneLoop rounds s = some s := by
  unfold cloneLoop
  rw [h]

theorem cloneLoop_cons {s : Clone A} {r target : Nat} {pending : List Nat} {source : Container A}
    (h : s.pending = r :: pending) (htarget : s.memo.lookup r = some target) (hsource : s.heap[r]? = some source)
    (rounds : Nat) :
    cloneLoop (rounds + 1) s =
      cloneLoop rounds (source.entries.foldl (Clone.entry target) { s with pending := pending }) := by
  rw [cloneLoop, h]
  simp only [htarget, hsource, Option.bind_some]

/-- `structured_clone`, which has a round for each container at most. -/
def structuredClone (h : Heap A) : Value A → Option (Heap A × Value A)
  | .atom a => some (h, .atom a)
  | .ref r =>
    match h[r]? with
    | none => some (h, .ref r)
    | some container =>
      (cloneLoop h.length ⟨h ++ [container.fresh], [(r, h.length)], [r]⟩).bind fun s =>
        (s.memo.lookup r).map fun target => (orderInPlace s.heap (.ref target), .ref target)

/-! ## Entries -/

section

variable {K : Type} {memo : List (Nat × Nat)}

/-- An entry and its copy. -/
def PairedEntry (memo : List (Nat × Nat)) (e e' : Option K × Value A) : Prop :=
  e.1 = e'.1 ∧ Paired memo e.2.toSum e'.2.toSum

/-- The copies of the items of an object are items with the same keys. -/
theorem exists_items {items : List (K × Value A)} {es : List (Option K × Value A)}
    (h : List.Forall₂ (PairedEntry memo) (items.map fun item => (some item.1, item.2)) es) :
    ∃ pairs : List (K × Value A), es = pairs.map (fun item => (some item.1, item.2)) ∧
      pairs.map Prod.fst = items.map Prod.fst ∧
      List.Forall₂ (fun item item' => item.1 = item'.1 ∧ Paired memo item.2 item'.2)
        (items.map (Prod.map id Value.toSum)) (pairs.map (Prod.map id Value.toSum)) := by
  induction items generalizing es with
  | nil =>
    cases h
    exact ⟨[], rfl, rfl, .nil⟩
  | cons item items ih =>
    cases h with
    | @cons _ e _ es he hes =>
      obtain ⟨pairs, rfl, hkeys, hpairs⟩ := ih hes
      obtain ⟨key, value⟩ := e
      obtain ⟨rfl, hvalue⟩ : some item.1 = key ∧ Paired memo item.2.toSum value.toSum := he
      exact ⟨(item.1, value) :: pairs, rfl, by rw [List.map_cons, List.map_cons, hkeys], .cons ⟨rfl, hvalue⟩ hpairs⟩

/-- So are those of a list. -/
theorem paired_values {values : List (Value A)} {es : List (Option K × Value A)}
    (h : List.Forall₂ (PairedEntry memo) (values.map fun value => (none, value)) es) :
    (Node.array (values.map Value.toSum) : Node Nat Kind (K ⊕ Nat) A).Paired memo
      (Node.array ((es.map Prod.snd).map Value.toSum)) := by
  refine GraphCopy.paired_array ?_
  rw [List.map_map, List.forall₂_map_left_iff, List.forall₂_map_right_iff]
  exact (List.forall₂_map_left_iff.mp h).imp fun _ _ he => he.2

end

/-! ## The copies made -/

namespace Container

variable {memo : List (Nat × Nat)}

theorem mem_children_of_mem_entries {container : Container A} {e : Option Key × Value A} (h : e ∈ container.entries) :
    e.2 ∈ container.children := by
  cases container with
  | dict items =>
    obtain ⟨item, hitem, rfl⟩ := List.mem_map.mp h
    exact List.mem_map_of_mem hitem
  | jsObject items =>
    obtain ⟨item, hitem, rfl⟩ := List.mem_map.mp h
    exact List.mem_map_of_mem hitem
  | list values =>
    obtain ⟨value, hvalue, rfl⟩ := List.mem_map.mp h
    exact hvalue

theorem keys_assign {container : Container A} (h : container.keys.Nodup) (e : Option Key × Value A) :
    (container.assign e).keys.Nodup := by
  obtain ⟨key, value⟩ := e
  cases key with
  | none =>
    cases container with
    | dict items => exact h
    | jsObject items => exact h
    | list values => exact h
  | some key =>
    cases container with
    | dict items => exact nodup_put h key value
    | jsObject items => exact nodup_put h key value
    | list values => exact h

theorem foldl_assign_list (values : List (Value A)) (es : List (Option Key × Value A)) :
    es.foldl assign (list values) = list (values ++ es.map Prod.snd) := by
  induction es generalizing values with
  | nil => simp
  | cons e es ih =>
    have hassign : (list values).assign e = list (values ++ [e.2]) := by
      obtain ⟨key, value⟩ := e
      cases key <;> rfl
    rw [List.foldl_cons, hassign, ih, List.map_cons, List.append_assoc, List.singleton_append]

theorem foldl_assign_jsObject {pairs : List (Key × Value A)} (hpairs : (pairs.map Prod.fst).Nodup) :
    (pairs.map fun item => (some item.1, item.2)).foldl assign (jsObject []) = jsObject pairs := by
  have hput (items : List (Key × Value A)) :
      (pairs.map fun item => (some item.1, item.2)).foldl assign (jsObject items) =
        jsObject (pairs.foldl (fun items item => put items item.1 item.2) items) := by
    induction pairs generalizing items with
    | nil => rfl
    | cons item pairs ih => exact ih (List.nodup_cons.mp hpairs).2 _
  rw [hput, foldl_put_new hpairs (by simp), List.nil_append]

/-- A fresh container with the copies of all entries is a copy. -/
theorem paired_foldl_assign {container : Container A} (hkeys : container.keys.Nodup)
    {es : List (Option Key × Value A)} (h : List.Forall₂ (PairedEntry memo) container.entries es) :
    container.node.Paired memo (es.foldl assign container.fresh).node := by
  have hobject {items : List (Key × Value A)} (hitems : (items.map Prod.fst).Nodup)
      (h : List.Forall₂ (PairedEntry memo) (items.map fun item => (some item.1, item.2)) es) :
      (Node.object (items.map (Prod.map id Value.toSum))).Paired memo (es.foldl assign (jsObject [])).node := by
    obtain ⟨pairs, rfl, hpairsKeys, hpairs⟩ := exists_items h
    rw [foldl_assign_jsObject (hpairsKeys ▸ hitems)]
    exact GraphCopy.paired_object hpairs
  cases container with
  | dict items => exact hobject hkeys h
  | jsObject items => exact hobject hkeys h
  | list values =>
    rw [fresh, foldl_assign_list, List.nil_append]
    exact paired_values h

end Container

/-- The copies made so far: those that are pending are empty, and no copy is a
plain dict. -/
structure Cloning (h : Heap A) (s : Clone A) (opened : Set Nat) : Prop where
  growing : Growing Container.node h s.heap s.memo ({r | r ∈ s.pending} ∪ opened)
  pending : s.pending.Nodup
  waiting : ∀ r ∈ s.pending, ∃ t container, (r, t) ∈ s.memo ∧ h[r]? = some container ∧
    s.heap[t]? = some container.fresh
  distinctKeys : DistinctKeys s.heap
  made : ∀ t items, h.length ≤ t → s.heap[t]? ≠ some (.dict items)

theorem Container.fresh_ne_dict (container : Container A) (items : List (Key × Value A)) :
    container.fresh ≠ .dict items := by
  cases container <;> simp [Container.fresh]

theorem Container.assign_ne_dict {container : Container A} (h : ∀ items, container ≠ .dict items)
    (e : Option Key × Value A) (items : List (Key × Value A)) : container.assign e ≠ .dict items := by
  obtain ⟨key, value⟩ := e
  cases container with
  | dict items' => exact absurd rfl (h items')
  | jsObject items' => cases key <;> simp [Container.assign]
  | list values => cases key <;> simp [Container.assign]

theorem Container.reordered_ne_dict {container : Container A} (h : ∀ items, container ≠ .dict items)
    (items : List (Key × Value A)) : container.reordered ≠ .dict items := by
  cases container with
  | dict items' => exact absurd rfl (h items')
  | jsObject items' => simp [Container.reordered]
  | list values => simp [Container.reordered]

theorem Container.keys_fresh (container : Container A) : container.fresh.keys.Nodup := by
  cases container <;> exact List.nodup_nil

namespace Cloning

variable {h : Heap A} {s : Clone A} {opened : Set Nat}

/-- A container that has no copy gets one, which is pending. -/
theorem allocate (hs : Cloning h s opened) {r : Nat} {container : Container A} (hr : h[r]? = some container)
    (hnew : s.memo.lookup r = none) :
    Cloning h { heap := s.heap ++ [container.fresh], memo := (r, s.heap.length) :: s.memo, pending := r :: s.pending }
      opened := by
  have hold {t : Nat} (ht : t < s.heap.length) : (s.heap ++ [container.fresh])[t]? = s.heap[t]? :=
    List.getElem?_append_left ht
  have hlt : r < h.length := (List.getElem?_eq_some_iff.mp hr).1
  refine ⟨?_, ?_, fun r' hr' => ?_, fun c hc => ?_, fun t items ht => ?_⟩
  · refine (hs.growing.allocate hlt hnew container.fresh).mono ?_
    rintro r' (rfl | hpending | hopened)
    · exact .inl (List.mem_cons_self ..)
    · exact .inl (List.mem_cons_of_mem _ hpending)
    · exact .inr hopened
  · refine List.nodup_cons.mpr ⟨fun hmem => ?_, hs.pending⟩
    obtain ⟨t, _, hmem, _⟩ := hs.waiting r hmem
    exact GraphCopy.notMem_of_lookup hnew (List.mem_map_of_mem hmem)
  · cases hr' with
    | head => exact ⟨_, container, List.mem_cons_self .., hr, by simp⟩
    | tail _ hr' =>
      obtain ⟨t, c, hmem, hc, ht⟩ := hs.waiting r' hr'
      exact ⟨t, c, List.mem_cons_of_mem _ hmem, hc, by rw [hold (hs.growing.pairs r' t hmem).2.2, ht]⟩
  · cases List.mem_append.mp hc with
    | inl hc => exact hs.distinctKeys c hc
    | inr hc => exact List.mem_singleton.mp hc ▸ container.keys_fresh
  · by_cases hlt : t < s.heap.length
    · rw [hold hlt]
      exact hs.made t items ht
    · intro heq
      rw [List.getElem?_append_right (Nat.le_of_not_lt hlt)] at heq
      exact container.fresh_ne_dict items (List.mem_singleton.mp (List.mem_of_getElem? heq)).symm

/-- The copy of a node that is open may change. -/
theorem modify (hs : Cloning h s opened) {r t : Nat} (hmem : (r, t) ∈ s.memo) (hr : r ∈ opened)
    (hpending : r ∉ s.pending) (e : Option Key × Value A) :
    Cloning h { s with heap := s.heap.modify t (·.assign e) } opened := by
  refine ⟨hs.growing.modify hmem (.inr hr) _, hs.pending, fun r' hr' => ?_, fun c hc => ?_, fun t' items ht' heq => ?_⟩
  · obtain ⟨t', c, hmem', hc, ht'⟩ := hs.waiting r' hr'
    have hne := hs.growing.target_ne hmem hmem' fun heq => hpending (heq ▸ hr')
    exact ⟨t', c, hmem', hc, by rw [List.getElem?_modify_ne _ s.heap hne.symm, ht']⟩
  · obtain ⟨i, hi⟩ := List.getElem?_of_mem hc
    rw [List.getElem?_modify] at hi
    obtain ⟨c', hc', rfl⟩ := Option.map_eq_some_iff.mp hi
    have hkeys := hs.distinctKeys c' (List.mem_of_getElem? hc')
    split
    · exact Container.keys_assign hkeys e
    · exact hkeys
  · rw [List.getElem?_modify] at heq
    obtain ⟨c, hc, hassign⟩ := Option.map_eq_some_iff.mp heq
    have hne (items' : List (Key × Value A)) : c ≠ .dict items' := fun hdict => hs.made t' items' ht' (hdict ▸ hc)
    split at hassign
    · exact c.assign_ne_dict hne e items hassign
    · exact hne items hassign

/-- What the steps of a round keep. -/
structure Grows (s s' : Clone A) : Prop where
  memo : s.memo ⊆ s'.memo
  pending : ∀ r ∈ s.memo.map Prod.fst, r ∉ s.pending → r ∉ s'.pending
  count : s'.pending.length + s.memo.length = s.pending.length + s'.memo.length

theorem Grows.refl (s : Clone A) : Grows s s := ⟨List.Subset.refl _, fun _ _ => id, rfl⟩

theorem Grows.trans {s s' s'' : Clone A} (h : Grows s s') (h' : Grows s' s'') : Grows s s'' := by
  refine ⟨List.Subset.trans h.memo h'.memo, fun r hr hpending => ?_, ?_⟩
  · exact h'.pending r (List.map_subset _ h.memo hr) (h.pending r hr hpending)
  · have hcount := h.count
    have hcount' := h'.count
    omega

/-- A child is paired with its copy. -/
theorem child (hs : Cloning h s opened) {value : Value A} (hvalue : ∀ r, value = .ref r → r < h.length) :
    Cloning h (s.child value).1 opened ∧ Grows s (s.child value).1 ∧
      Paired (s.child value).1.memo value.toSum (s.child value).2.toSum ∧
      ∀ t < s.heap.length, (s.child value).1.heap[t]? = s.heap[t]? := by
  cases value with
  | atom a => exact ⟨hs, .refl s, .inl rfl, fun _ _ => rfl⟩
  | ref r =>
    have hlt := hvalue r rfl
    obtain ⟨container, hr⟩ : ∃ container, h[r]? = some container := ⟨h[r], List.getElem?_eq_getElem hlt⟩
    cases hlookup : s.memo.lookup r with
    | some t =>
      rw [Clone.child_known hlookup]
      exact ⟨hs, .refl s, .inr (GraphCopy.mem_of_lookup hlookup), fun _ _ => rfl⟩
    | none =>
      rw [Clone.child_new hlookup ((hs.growing.left r hlt).trans hr)]
      refine ⟨hs.allocate hr hlookup, ⟨List.subset_cons_self .., fun r' hr' hpending hmem => ?_, ?_⟩,
        .inr (List.mem_cons_self ..), fun t ht => List.getElem?_append_left ht⟩
      · cases hmem with
        | head => exact GraphCopy.notMem_of_lookup hlookup hr'
        | tail _ hmem => exact hpending hmem
      · simp only [List.length_cons]
        omega

/-- A node that is open is filled. -/
theorem entries (hs : Cloning h s opened) {r t : Nat} (hmem : (r, t) ∈ s.memo) (hr : r ∈ opened)
    (hpending : r ∉ s.pending) {container : Container A} (ht : s.heap[t]? = some container)
    {es : List (Option Key × Value A)} (hes : ∀ e ∈ es, ∀ r, e.2 = .ref r → r < h.length) :
    Cloning h (es.foldl (Clone.entry t) s) opened ∧ Grows s (es.foldl (Clone.entry t) s) ∧
      ∃ es', List.Forall₂ (PairedEntry (es.foldl (Clone.entry t) s).memo) es es' ∧
        (es.foldl (Clone.entry t) s).heap[t]? = some (es'.foldl Container.assign container) := by
  induction es generalizing s container with
  | nil => exact ⟨hs, .refl s, [], .nil, ht⟩
  | cons e es ih =>
    obtain ⟨hchild, hgrows, hpaired, hframe⟩ := hs.child (hes e (List.mem_cons_self ..))
    have hmem' := hgrows.memo hmem
    have hpending' := hgrows.pending r (List.mem_map_of_mem hmem) hpending
    have hentry := hchild.modify hmem' hr hpending' (e.1, (s.child e.2).2)
    have ht' : (Clone.entry t s e).heap[t]? = some (container.assign (e.1, (s.child e.2).2)) := by
      rw [Clone.entry, List.getElem?_modify_eq, hframe t (hs.growing.pairs r t hmem).2.2, ht]
      rfl
    obtain ⟨hall, hmore, es', hes', hfilled⟩ := ih hentry hmem' hpending' ht' fun e' he' =>
      hes e' (List.mem_cons_of_mem _ he')
    refine ⟨hall, hgrows.trans ⟨hmore.memo, hmore.pending, hmore.count⟩, (e.1, (s.child e.2).2) :: es',
      .cons ⟨rfl, ?_⟩ hes', hfilled⟩
    exact hpaired.mono hmore.memo

end Cloning

/-! ## The result -/

/-- The loop ends, as each round has a container that was not pending before. -/
theorem cloneLoop_cloning {h : Heap A} (hclosed : Closed h) (hkeys : DistinctKeys h) (rounds : Nat)
    {s : Clone A} (hs : Cloning h s ∅) (hrounds : h.length + s.pending.length ≤ rounds + s.memo.length) :
    ∃ s', cloneLoop rounds s = some s' ∧ Cloning h s' ∅ ∧ s'.pending = [] ∧ s.memo ⊆ s'.memo := by
  induction rounds generalizing s with
  | zero =>
    have hlength := hs.growing.length_memo_le
    have hpending : s.pending = [] := List.length_eq_zero_iff.mp (by omega)
    exact ⟨s, cloneLoop_nil hpending 0, hs, hpending, List.Subset.refl _⟩
  | succ rounds ih =>
    cases hpending : s.pending with
    | nil => exact ⟨s, cloneLoop_nil hpending _, hs, hpending, List.Subset.refl _⟩
    | cons r pending =>
      obtain ⟨t, container, hmem, hr, ht⟩ := hs.waiting r (hpending ▸ List.mem_cons_self ..)
      have hnodup := hpending ▸ hs.pending
      have hlt : r < h.length := (List.getElem?_eq_some_iff.mp hr).1
      have hcontainer : container ∈ h := List.mem_of_getElem? hr
      -- the node taken from the worklist is the one that is filled
      have htaken : Cloning h { s with pending := pending } {r} := by
        refine ⟨hs.growing.mono fun r' hr' => ?_, (List.nodup_cons.mp hnodup).2,
          fun r' hr' => hs.waiting r' (hpending ▸ List.mem_cons_of_mem _ hr'), hs.distinctKeys, hs.made⟩
        have hcases : r' ∈ r :: pending := by simpa [hpending] using hr'
        exact (List.mem_cons.mp hcases).elim .inr .inl
      have hentries : ∀ e ∈ container.entries, ∀ r', e.2 = .ref r' → r' < h.length :=
        fun e he r' hr' => hclosed container hcontainer r' (hr' ▸ Container.mem_children_of_mem_entries he)
      obtain ⟨hfilled, hgrows, es', hes', ht'⟩ := htaken.entries hmem rfl (List.nodup_cons.mp hnodup).1 ht hentries
      have hpaired := Container.paired_foldl_assign (hkeys container hcontainer) hes'
      have hclose := hfilled.growing.close (hgrows.memo hmem) hr ht' hpaired
      have hnext : Cloning h (container.entries.foldl (Clone.entry t) { s with pending := pending }) ∅ :=
        ⟨hclose.mono fun r' hr' => .inl (hr'.1.resolve_right hr'.2), hfilled.pending, hfilled.waiting,
          hfilled.distinctKeys, hfilled.made⟩
      have hcount := hgrows.count
      rw [hpending, List.length_cons] at hrounds
      obtain ⟨s', hloop, hs', hdone, hmemo⟩ := ih hnext (by simp only at hcount; omega)
      have htarget := (GraphCopy.lookup_eq_some_iff hs.growing.copying.sources).mpr hmem
      rw [cloneLoop_cons hpending htarget ((hs.growing.left r hlt).trans hr)]
      exact ⟨s', hloop, hs', hdone, List.Subset.trans hgrows.memo hmemo⟩

theorem cloning_none {h : Heap A} (hkeys : DistinctKeys h) : Cloning h ⟨h, [], []⟩ ∅ := by
  refine ⟨.nil _ _, List.nodup_nil, fun _ hmem => absurd hmem List.not_mem_nil, hkeys, fun t items ht heq => ?_⟩
  rw [List.getElem?_eq_none ht] at heq
  cases heq

theorem cloning_start {h : Heap A} (hkeys : DistinctKeys h) {r : Nat} {container : Container A}
    (hr : h[r]? = some container) : Cloning h ⟨h ++ [container.fresh], [(r, h.length)], [r]⟩ ∅ :=
  (cloning_none hkeys).allocate hr rfl

/-- A copy that is in order is an object in ECMAScript order, or a list. -/
theorem Cloning.inOrder {h : Heap A} {s : Clone A} {opened : Set Nat} (hs : Cloning h s opened) {t : Nat}
    (ht : h.length ≤ t ∧ t < s.heap.length) {value : Value A} (horder : InOrder (orderInPlace s.heap value) t) :
    (∃ items, (orderInPlace s.heap value)[t]? = some (.jsObject items) ∧ esOrder items = items) ∨
      ∃ values, (orderInPlace s.heap value)[t]? = some (.list values) := by
  have hold : s.heap[t]? = some s.heap[t] := List.getElem?_eq_getElem ht.2
  have hne (items : List (Key × Value A)) : s.heap[t] ≠ .dict items := fun heq => hs.made t items ht.1 (heq ▸ hold)
  obtain ⟨container, hcontainer, hdict⟩ : ∃ container, (orderInPlace s.heap value)[t]? = some container ∧
      ∀ items, container ≠ .dict items := by
    cases orderInPlace_cases s.heap value t with
    | inl heq => exact ⟨_, heq.trans hold, hne⟩
    | inr heq => exact ⟨_, heq.trans (congrArg _ hold), Container.reordered_ne_dict hne⟩
  rw [InOrder, hcontainer, Option.map_some] at horder
  cases container with
  | dict items => exact absurd rfl (hdict items)
  | jsObject items => exact .inl ⟨items, hcontainer, Container.jsObject.inj (Option.some.inj horder)⟩
  | list values => exact .inr ⟨values, hcontainer⟩

/-- A value is a clone: its containers are one for each of what is cloned, of the
same kind, with the same scalars, and copies, under the same keys and positions;
two paths lead to the same where they do in what is cloned; and no container is
one of those there were before. -/
structure IsClone {K : Type} (G G' : Graph Nat Kind (K ⊕ Nat) A) (v v' : A ⊕ Nat) (before : Nat) : Prop where
  bijection : ∃ f : Nat → Nat, v' = v.map id f ∧ Set.BijOn f (reached G v) (reached G' v') ∧
    ∀ r ∈ reached G v, G' (f r) = (G r).map (Node.map f)
  aliasing : ∀ path path', follow G' v' path = follow G' v' path' ↔ follow G v path = follow G v path'
  apart : ∀ r ∈ reached G' v', before ≤ r

/-- A finished copy behind the cells there were is a clone. -/
theorem isClone_of_growing {C K : Type} {node : C → Node Nat Kind (K ⊕ Nat) A} {source cells : List C}
    {memo : List (Nat × Nat)} (h : Growing node source cells memo ∅) {v v' : A ⊕ Nat} (hv : Paired memo v v') :
    IsClone (GraphCopy.nodes node source) (GraphCopy.nodes node cells) v v' source.length := by
  have hcopy := h.copying.isCopy hv
  exact ⟨⟨_, hcopy.root, hcopy.bijOn_reached, hcopy.node⟩, hcopy.follow_eq_iff,
    fun r hr => (h.length_le_of_reached hv hr).1⟩

/-- The clone is one, its objects are in order, and the containers there were are
left. -/
theorem structuredClone_spec (g : ArgumentGraph A) :
    ∃ h' v', structuredClone g.heap g.value = some (h', v') ∧
      IsClone (graph g.heap) (graph h') g.value.toSum v'.toSum g.heap.length ∧
      (∀ r ∈ reached (graph h') v'.toSum, (∃ items, h'[r]? = some (.jsObject items) ∧ esOrder items = items) ∨
        ∃ values, h'[r]? = some (.list values)) ∧
      ∀ r < g.heap.length, h'[r]? = g.heap[r]? := by
  obtain ⟨h, v, hclosed, hkeys, hroot⟩ := g
  cases v with
  | atom a =>
    refine ⟨h, .atom a, rfl, isClone_of_growing (.nil _ _) (.inl rfl), fun r ⟨path, hpath⟩ => ?_, fun _ _ => rfl⟩
    cases path <;> cases hpath
  | ref r =>
    have hlt := hroot r rfl
    have hr : h[r]? = some h[r] := List.getElem?_eq_getElem hlt
    have hstart := cloning_start hkeys hr
    obtain ⟨s, hloop, hs, hpending, hmemo⟩ := cloneLoop_cloning hclosed hkeys h.length hstart le_rfl
    have hmem : (r, h.length) ∈ s.memo := hmemo (List.mem_singleton_self _)
    have hlookup := (GraphCopy.lookup_eq_some_iff hs.growing.copying.sources).mpr hmem
    have hgrown : Growing Container.node h s.heap s.memo ∅ := hs.growing.mono (by simp [hpending])
    have hgraph := graph_orderInPlace hs.distinctKeys (.ref h.length)
    have hnew {t : Nat} (ht : t ∈ reached (graph s.heap) (.inr h.length)) : h.length ≤ t ∧ t < s.heap.length :=
      hgrown.length_le_of_reached (.inr hmem) ht
    refine ⟨orderInPlace s.heap (.ref h.length), .ref h.length, ?_, ?_, fun t ht => ?_, fun r' hr' => ?_⟩
    · simp only [structuredClone, hr, hloop, hlookup, Option.bind_some, Option.map_some]
    · rw [hgraph]
      exact isClone_of_growing hgrown (.inr hmem)
    · exact hs.inOrder (hnew (hgraph ▸ ht)) (orderInPlace_orders s.heap (.ref h.length) ht)
    · rw [← hs.growing.left r' hr']
      exact orderInPlace_of_notMem_reached hs.distinctKeys fun ht => absurd (hnew ht).1 (Nat.not_le_of_lt hr')

end MinionAgent.JsObject
