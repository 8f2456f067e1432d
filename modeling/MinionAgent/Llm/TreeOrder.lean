import MinionAgent.Library.Surrogates
import MinionAgent.Llm.JsObject
import MinionAgent.Llm.ObjectGraph

/-!
# MinionAgent.Llm.TreeOrder

`llm/js_object.py` on trees and on heaps: a message holds its arguments as a
tree, whose keys are strings, and the heap of `ObjectHeap` shares containers,
whose keys may have lone surrogates.

* `isArrayIndex_ofString`, `esOrder_ofString` — the same keys are indices, and
  the same order follows;
* `holdsTree_orderInPlace` — a heap that holds a tree holds the ordered tree
  once it is put in order.
-/

namespace MinionAgent.JsObject

open PropertyOrder
open GraphCopy (reached)

/-! ## Keys -/

/-- The key that a string is. -/
def ofString (key : String) : Key := key.toList.map codePointOf

theorem keyInt_ofString (key : String) : JsJson.keyInt (ofString key) = decimal key := by
  rw [JsJson.keyInt, ofString, List.foldl_map, decimal]
  congr 1
  funext n c
  rw [Nat.mul_comm]
  rfl

theorem isArrayIndex_ofString (key : String) : isArrayIndex (ofString key) = MinionAgent.isArrayIndex key := by
  have hempty : (ofString key).isEmpty = key.isEmpty := by
    rw [ofString, List.isEmpty_map, Bool.eq_iff_iff]
    simp [String.isEmpty_iff]
  have hdigits : (ofString key).all JsJson.isAsciiDigit = key.toList.all Char.isDigit := by
    rw [ofString, List.all_map]
    rfl
  have hhead : ((ofString key).head? == some 0x30) = (key.toList.head? == some '0') := by
    rw [ofString, List.head?_map]
    cases key.toList.head? with
    | none => rfl
    | some c =>
      rw [Option.map_some, Bool.eq_iff_iff, beq_iff_eq, beq_iff_eq, Option.some.injEq, Option.some.injEq, Fin.ext_iff]
      exact @Char.toNat_inj c '0'
  rw [isArrayIndex, MinionAgent.isArrayIndex, hempty, hdigits, hhead, keyInt_ofString]
  simp only [ofString, List.length_map, String.length_toList]
  rfl

theorem index?_ofString (key : String) :
    index? (ofString key) = if MinionAgent.isArrayIndex key then some (decimal key) else none := by
  rw [index?, isArrayIndex_ofString, keyInt_ofString]

/-! ## The order of one object -/

theorem esOrder_ofString {V W : Type} (f : V → W) (items : List (String × V)) :
    esOrder (items.map (Prod.map ofString f)) = (MinionAgent.esOrder items).map (Prod.map ofString f) := by
  let index (key : String) : Option Nat := index? (ofString key)
  have hkeys : ∀ item : String × V, index? (Prod.map ofString f item).1 = index item.1 := fun _ => rfl
  have hmap : esOrder (items.map (Prod.map ofString f)) = (ordered index items).map (Prod.map ofString f) :=
    ordered_map hkeys items
  rw [hmap]
  congr 1
  have hsome (key : String) : (index key).isSome = MinionAgent.isArrayIndex key := by
    rw [show index key = _ from index?_ofString key]
    cases MinionAgent.isArrayIndex key <;> rfl
  have hnone (key : String) : (index key).isNone = !MinionAgent.isArrayIndex key := by
    rw [← hsome, Option.not_isSome]
  rw [ordered, indexed, others, MinionAgent.esOrder]
  simp only [hsome, hnone]
  congr 1
  have hsort := List.map_insertionSort (Precedes index) byIndex id
    (items.filter fun item => MinionAgent.isArrayIndex item.1) fun x hx y hy => ?_
  · simpa using hsort
  · have hx' := (List.mem_filter.mp hx).2
    have hy' := (List.mem_filter.mp hy).2
    simp only [Precedes, index, index?_ofString, hx', hy', if_true, Option.getD_some, id, byIndex]

/-! ## Trees in a heap -/

mutual

/-- What a value leads to in a heap is a tree: of lists and of dicts of either
kind, and anything else. -/
def HoldsTree (h : Heap Py.Value) : Py.Value → Value Py.Value → Prop
  | .list xs, value => ∃ r values, value = .ref r ∧ h[r]? = some (.list values) ∧ HoldsAll h xs values
  | .dict items, value => ∃ r entries, value = .ref r ∧
      (h[r]? = some (.dict entries) ∨ h[r]? = some (.jsObject entries)) ∧ HoldsItems h items entries
  | .scalar s, value => value = .atom (.scalar s)
  | .tuple xs, value => value = .atom (.tuple xs)
  | .mixedDict items key, value => value = .atom (.mixedDict items key)
  | .other typeName, value => value = .atom (.other typeName)

def HoldsAll (h : Heap Py.Value) : List Py.Value → List (Value Py.Value) → Prop
  | [], values => values = []
  | x :: xs, values => ∃ value rest, values = value :: rest ∧ HoldsTree h x value ∧ HoldsAll h xs rest

def HoldsItems (h : Heap Py.Value) : List (String × Py.Value) → List (Key × Value Py.Value) → Prop
  | [], entries => entries = []
  | (key, x) :: items, entries => ∃ value rest, entries = (ofString key, value) :: rest ∧ HoldsTree h x value ∧
      HoldsItems h items rest

end

variable {h : Heap Py.Value}

/-- The items and the entries are those of one list. -/
theorem holdsItems_iff {items : List (String × Py.Value)} {entries : List (Key × Value Py.Value)} :
    HoldsItems h items entries ↔ ∃ pairs : List (String × (Py.Value × Value Py.Value)),
      items = pairs.map (Prod.map id Prod.fst) ∧ entries = pairs.map (Prod.map ofString Prod.snd) ∧
        ∀ pair ∈ pairs, HoldsTree h pair.2.1 pair.2.2 := by
  induction items generalizing entries with
  | nil =>
    rw [HoldsItems]
    constructor
    · rintro rfl
      exact ⟨[], rfl, rfl, by simp⟩
    · rintro ⟨pairs, hitems, rfl, -⟩
      rw [List.map_eq_nil_iff.mp hitems.symm, List.map_nil]
  | cons item items ih =>
    obtain ⟨key, x⟩ := item
    rw [HoldsItems]
    constructor
    · rintro ⟨value, rest, rfl, hvalue, hrest⟩
      obtain ⟨pairs, rfl, rfl, hpairs⟩ := ih.mp hrest
      exact ⟨(key, (x, value)) :: pairs, rfl, rfl, List.forall_mem_cons.mpr ⟨hvalue, hpairs⟩⟩
    · rintro ⟨pairs, hitems, rfl, hpairs⟩
      cases pairs with
      | nil => cases hitems
      | cons pair pairs =>
        obtain ⟨hitem, rfl⟩ := List.cons.inj hitems
        cases hitem
        obtain ⟨hpair, hrest⟩ := List.forall_mem_cons.mp hpairs
        exact ⟨pair.2.2, _, rfl, hpair, ih.mpr ⟨pairs, rfl, rfl, hrest⟩⟩

theorem HoldsItems.esOrder {items : List (String × Py.Value)} {entries : List (Key × Value Py.Value)}
    (hitems : HoldsItems h items entries) : HoldsItems h (MinionAgent.esOrder items) (JsObject.esOrder entries) := by
  obtain ⟨pairs, rfl, rfl, hpairs⟩ := holdsItems_iff.mp hitems
  refine holdsItems_iff.mpr ⟨MinionAgent.esOrder pairs, esOrder_map Prod.fst pairs, esOrder_ofString Prod.snd pairs, ?_⟩
  intro pair hpair
  refine hpairs pair ?_
  rw [MinionAgent.esOrder, List.mem_append, List.mem_insertionSort] at hpair
  exact hpair.elim (fun h => (List.mem_filter.mp h).1) fun h => (List.mem_filter.mp h).1

theorem reached_child (hkeys : DistinctKeys h) {r : Nat} {container : Container Py.Value} (hr : h[r]? = some container)
    {value : Value Py.Value} (hvalue : value ∈ container.children) :
    reached (graph h) value.toSum ⊆ reached (graph h) (.inr r) := by
  cases value with
  | atom a =>
    rintro r' ⟨path, hpath⟩
    cases path <;> cases hpath
  | ref b =>
    obtain ⟨l, hl⟩ := Container.exists_field_of_mem_children (hkeys _ (List.mem_of_getElem? hr)) hvalue
    exact GraphCopy.reached_field (GraphCopy.reached_self _ r) (congrArg (Option.map Container.node) hr) hl

/-- What the value leads to is re-sequenced in another heap. -/
def ResequencedBelow (h h' : Heap Py.Value) (value : Value Py.Value) : Prop :=
  ∀ r ∈ reached (graph h) value.toSum, h'[r]? = h[r]?.map Container.reordered

mutual

theorem HoldsTree.resequenced (hkeys : DistinctKeys h) {h' : Heap Py.Value} : ∀ {x : Py.Value} {value : Value Py.Value},
    HoldsTree h x value → ResequencedBelow h h' value → HoldsTree h' (MinionAgent.orderInPlace x) value
  | .list xs, value, hx, hbelow => by
    rw [HoldsTree] at hx
    obtain ⟨r, values, rfl, hr, hvalues⟩ := hx
    have hr' := hbelow r (GraphCopy.reached_self _ r)
    rw [hr] at hr'
    rw [MinionAgent.orderInPlace, HoldsTree]
    exact ⟨r, values, rfl, hr', hvalues.resequenced hkeys fun value hvalue r' hreached =>
      hbelow r' (reached_child hkeys hr hvalue hreached)⟩
  | .dict items, value, hx, hbelow => by
    rw [HoldsTree] at hx
    obtain ⟨r, entries, rfl, hr, hentries⟩ := hx
    have hr' := hbelow r (GraphCopy.reached_self _ r)
    have hitems : HoldsItems h' (orderItems items) entries := hentries.resequenced hkeys fun entry hentry r' hreached =>
      hbelow r' (hr.elim (fun hr => reached_child hkeys hr (List.mem_map_of_mem hentry) hreached)
        fun hr => reached_child hkeys hr (List.mem_map_of_mem hentry) hreached)
    rw [MinionAgent.orderInPlace, HoldsTree]
    refine ⟨r, JsObject.esOrder entries, rfl, hr.imp (fun hr => ?_) fun hr => ?_, hitems.esOrder⟩
    · rw [hr', hr]
      rfl
    · rw [hr', hr]
      rfl
  | .scalar s, value, hx, _ => by
    rw [HoldsTree] at hx
    rw [MinionAgent.orderInPlace, HoldsTree, hx]
  | .tuple xs, value, hx, _ => by
    rw [HoldsTree] at hx
    rw [MinionAgent.orderInPlace, HoldsTree, hx]
  | .mixedDict items key, value, hx, _ => by
    rw [HoldsTree] at hx
    rw [MinionAgent.orderInPlace, HoldsTree, hx]
  | .other typeName, value, hx, _ => by
    rw [HoldsTree] at hx
    rw [MinionAgent.orderInPlace, HoldsTree, hx]

theorem HoldsAll.resequenced (hkeys : DistinctKeys h) {h' : Heap Py.Value} : ∀ {xs : List Py.Value}
    {values : List (Value Py.Value)}, HoldsAll h xs values → (∀ value ∈ values, ResequencedBelow h h' value) →
      HoldsAll h' (orderAll xs) values
  | [], values, hxs, _ => by
    rw [HoldsAll] at hxs
    rw [orderAll, HoldsAll, hxs]
  | x :: xs, values, hxs, hbelow => by
    rw [HoldsAll] at hxs
    obtain ⟨value, rest, rfl, hx, hrest⟩ := hxs
    obtain ⟨hfirst, hothers⟩ := List.forall_mem_cons.mp hbelow
    rw [orderAll, HoldsAll]
    exact ⟨value, rest, rfl, hx.resequenced hkeys hfirst, hrest.resequenced hkeys hothers⟩

theorem HoldsItems.resequenced (hkeys : DistinctKeys h) {h' : Heap Py.Value} : ∀ {items : List (String × Py.Value)}
    {entries : List (Key × Value Py.Value)}, HoldsItems h items entries →
      (∀ entry ∈ entries, ResequencedBelow h h' entry.2) → HoldsItems h' (orderItems items) entries
  | [], entries, hitems, _ => by
    rw [HoldsItems] at hitems
    rw [orderItems, HoldsItems, hitems]
  | (key, x) :: items, entries, hitems, hbelow => by
    rw [HoldsItems] at hitems
    obtain ⟨value, rest, rfl, hx, hrest⟩ := hitems
    obtain ⟨hfirst, hothers⟩ := List.forall_mem_cons.mp hbelow
    rw [orderItems, HoldsItems]
    exact ⟨value, rest, rfl, hx.resequenced hkeys hfirst, hrest.resequenced hkeys hothers⟩

end

/-- `order_in_place` of a value that holds a tree leaves one that holds the
ordered tree. -/
theorem holdsTree_orderInPlace (hkeys : DistinctKeys h) {x : Py.Value} {value : Value Py.Value}
    (hx : HoldsTree h x value) : HoldsTree (orderInPlace h value) (MinionAgent.orderInPlace x) value := by
  refine hx.resequenced hkeys fun r hr => ?_
  have horder : InOrder (orderInPlace h value) r := orderInPlace_orders h value (by rwa [graph_orderInPlace hkeys])
  rcases orderInPlace_cases h value r with hsame | hnew
  · rw [InOrder, hsame] at horder
    exact hsame.trans horder.symm
  · exact hnew

end MinionAgent.JsObject
