import MinionAgent.Library.PyValue

/-!
# MinionAgent.Llm.JsObject

ECMAScript key order for tool-argument objects (`llm/js_object.py`).

A JavaScript object enumerates its array-index keys first, ascending, then
every other key in insertion order.  `esOrder` is that order on the items of
one dict and `orderInPlace` re-sequences every dict reachable through dicts
and lists.  `Arguments` is a tool call's argument object: its items are in
that order from construction on, so ordering it again changes nothing.
-/

namespace MinionAgent

open Py

/-! ## Array-index keys -/

/-- The largest array index, `2 ** 32 - 2`. -/
def maxArrayIndex : Nat := 4294967294

/-- `int(key)` for a string of ASCII digits. -/
def decimal (key : String) : Nat :=
  key.toList.foldl (fun n c => 10 * n + (c.toNat - '0'.toNat)) 0

/-- The canonical decimal strings of the integers up to `maxArrayIndex`. -/
def isArrayIndex (key : String) : Bool :=
  if key.isEmpty || key.length > 10 || !key.toList.all Char.isDigit then
    false
  else if key.length > 1 && key.toList.head? == some '0' then
    false
  else
    decimal key ≤ maxArrayIndex

/-! ## The order of one object -/

/-- Compare two items by the integer their keys spell. -/
def byIndex {α : Type} (x y : String × α) : Prop := decimal x.1 ≤ decimal y.1

instance {α : Type} : DecidableRel (byIndex (α := α)) :=
  fun x y => inferInstanceAs (Decidable (decimal x.1 ≤ decimal y.1))

instance {α : Type} : Std.Total (byIndex (α := α)) := ⟨fun x y => Nat.le_total (decimal x.1) (decimal y.1)⟩

instance {α : Type} : IsTrans (String × α) byIndex := ⟨fun _ _ _ => Nat.le_trans⟩

/-- The items of a dict in ECMAScript `OrdinaryOwnPropertyKeys` order. -/
def esOrder {α : Type} (items : List (String × α)) : List (String × α) :=
  (items.filter fun item => isArrayIndex item.1).insertionSort byIndex ++
    items.filter fun item => !isArrayIndex item.1

/-- The order of an object depends on its keys only. -/
theorem esOrder_map {α β : Type} (f : α → β) (items : List (String × α)) :
    esOrder (items.map (Prod.map id f)) = (esOrder items).map (Prod.map id f) := by
  have hsort : ∀ xs : List (String × α),
      (xs.insertionSort byIndex).map (Prod.map id f) = (xs.map (Prod.map id f)).insertionSort byIndex := by
    intro xs
    exact List.map_insertionSort byIndex byIndex (Prod.map id f) xs fun _ _ _ _ => Iff.rfl
  simp only [esOrder, List.map_append, List.filter_map, hsort]
  rfl

/-- An object in order stays as it is. -/
theorem esOrder_idem {α : Type} (items : List (String × α)) : esOrder (esOrder items) = esOrder items := by
  let indices := (items.filter fun item => isArrayIndex item.1).insertionSort byIndex
  let others := items.filter fun item => !isArrayIndex item.1
  have hindices : ∀ item ∈ indices, isArrayIndex item.1 = true := by
    intro item hitem
    exact (List.mem_filter.mp ((List.mem_insertionSort byIndex).mp hitem)).2
  have hothers : ∀ item ∈ others, (!isArrayIndex item.1) = true := fun item hitem => (List.mem_filter.mp hitem).2
  have hleft : (indices ++ others).filter (fun item => isArrayIndex item.1) = indices := by
    rw [List.filter_append, List.filter_eq_self.mpr hindices, List.filter_eq_nil_iff.mpr, List.append_nil]
    intro item hitem
    simpa using hothers item hitem
  have hright : (indices ++ others).filter (fun item => !isArrayIndex item.1) = others := by
    rw [List.filter_append, List.filter_eq_self.mpr hothers, List.filter_eq_nil_iff.mpr, List.nil_append]
    intro item hitem
    simpa using hindices item hitem
  have hsorted : indices.insertionSort byIndex = indices :=
    (List.pairwise_insertionSort byIndex _).insertionSort_eq
  change esOrder (indices ++ others) = indices ++ others
  rw [esOrder, hleft, hright, hsorted]

/-! ## The order of every reachable object -/

mutual

/-- Re-sequence every dict reachable through dicts and lists.  Tuples are not
entered, and a dict with a key that is not a string is no argument object. -/
def orderInPlace : Value → Value
  | .list xs => .list (orderAll xs)
  | .dict items => .dict (esOrder (orderItems items))
  | .scalar s => .scalar s
  | .tuple xs => .tuple xs
  | .mixedDict items key => .mixedDict items key
  | .other typeName => .other typeName

/-- Order every element of a list. -/
def orderAll : List Value → List Value
  | [] => []
  | x :: xs => orderInPlace x :: orderAll xs

/-- Order every value of a dict. -/
def orderItems : List (String × Value) → List (String × Value)
  | [] => []
  | (key, x) :: items => (key, orderInPlace x) :: orderItems items

end

theorem orderItems_eq_map (items : List (String × Value)) :
    orderItems items = items.map (Prod.map id orderInPlace) := by
  induction items with
  | nil => rfl
  | cons item items ih =>
    obtain ⟨key, x⟩ := item
    simp [orderItems, ih]

mutual

/-- Ordering a value a second time changes nothing. -/
theorem orderInPlace_idem : ∀ v : Value, orderInPlace (orderInPlace v) = orderInPlace v
  | .list xs => by simp [orderInPlace, orderAll_idem xs]
  | .dict items => by
    have hitems := orderItems_idem items
    rw [orderItems_eq_map (orderItems items)] at hitems
    simp only [orderInPlace]
    rw [orderItems_eq_map (esOrder (orderItems items)), ← esOrder_map, hitems, esOrder_idem]
  | .scalar s => by simp [orderInPlace]
  | .tuple xs => by simp [orderInPlace]
  | .mixedDict items key => by simp [orderInPlace]
  | .other typeName => by simp [orderInPlace]

theorem orderAll_idem : ∀ xs : List Value, orderAll (orderAll xs) = orderAll xs
  | [] => rfl
  | x :: xs => by simp [orderAll, orderInPlace_idem x, orderAll_idem xs]

theorem orderItems_idem : ∀ items : List (String × Value), orderItems (orderItems items) = orderItems items
  | [] => rfl
  | (key, x) :: items => by simp [orderItems, orderInPlace_idem x, orderItems_idem items]

end

/-! ## Argument objects -/

/-- A tool call's arguments: a dict whose every reachable object is in
ECMAScript order. -/
structure Arguments where
  items : List (String × Value)
  ordered : orderInPlace (.dict items) = .dict items
deriving DecidableEq

namespace Arguments

/-- The dict itself. -/
def value (arguments : Arguments) : Value := .dict arguments.items

/-- Order a raw dict, as a tool call does at construction. -/
def adopt (items : List (String × Value)) : Arguments where
  items := esOrder (orderItems items)
  ordered := by simpa only [orderInPlace] using orderInPlace_idem (.dict items)

/-- `order_raw`: the arguments where they are serialized. -/
def orderRaw (arguments : Arguments) : Value := orderInPlace arguments.value

@[simp] theorem orderRaw_eq (arguments : Arguments) : arguments.orderRaw = arguments.value :=
  arguments.ordered

@[simp] theorem adopt_items (arguments : Arguments) : adopt arguments.items = arguments := by
  have h := arguments.ordered
  simp only [orderInPlace, Value.dict.injEq] at h
  cases arguments
  simpa [adopt] using h

end Arguments

example : esOrder [("b", 1), ("10", 2), ("9", 3), ("01", 4)] = [("9", 3), ("10", 2), ("b", 1), ("01", 4)] := by
  decide

end MinionAgent
