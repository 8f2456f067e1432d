import Mathlib.Logic.Relation
import MinionAgent.Auth.JsJsonExact
import MinionAgent.Library.PropertyOrder

/-!
# MinionAgent.Llm.ObjectHeap

Tool-argument objects as they are shared by reference (`llm/js_object.py`):
containers in a heap, and `order_in_place` over what a value reaches.

Keys are strings of code points, so that lone surrogates count.  A container's
items come in the order in which it enumerates.

* `index?_injective` — array-index keys are canonical;
* `orderFrom_spec` — each container is left, or is put in order where the value
  leads to it.
-/

namespace MinionAgent.JsObject

open Rfc8259 (CodePoint)
open JsJson (isAsciiDigit keyInt)
open PropertyOrder

abbrev Key : Type := List CodePoint

/-! ## Array indices -/

/-- `_MAX_ARRAY_INDEX`. -/
def MAX_ARRAY_INDEX : Nat := 4294967294

/-- `_MAX_ARRAY_INDEX_DIGITS`. -/
def MAX_ARRAY_INDEX_DIGITS : Nat := 10

/-- `is_array_index`; `keyInt` is `int` of ASCII digits. -/
def isArrayIndex (key : Key) : Bool :=
  if key.isEmpty || key.length > MAX_ARRAY_INDEX_DIGITS || !key.all isAsciiDigit then false
  else if key.length > 1 && key.head? == some 0x30 then false
  else keyInt key ≤ MAX_ARRAY_INDEX

/-- The array index that a key is. -/
def index? (key : Key) : Option Nat := if isArrayIndex key then some (keyInt key) else none

/-- `es_order`, of the items. -/
def esOrder {V : Type} (items : List (Key × V)) : List (Key × V) := ordered index? items

theorem isArrayIndex_eq (key : Key) : isArrayIndex key = JsJson.isArrayIndex key := by
  have hmax : MAX_ARRAY_INDEX = JsJson.MAX_ARRAY_INDEX := by decide
  unfold isArrayIndex JsJson.isArrayIndex MAX_ARRAY_INDEX_DIGITS JsJson.MAX_ARRAY_INDEX_DIGITS
  cases key with
  | nil => rfl
  | cons c key =>
    cases key with
    | nil => grind
    | cons d key => grind

/-- Array-index keys are canonical. -/
theorem index?_injective : Injective index? := by
  intro key key' i hkey hkey'
  have hcanonical {key : Key} (h : index? key = some i) : JsJson.decimalKey i = key := by
    unfold index? at h
    split at h
    · next hindex =>
      rw [isArrayIndex_eq] at hindex
      exact Option.some.inj h ▸ (JsJson.decimalKey_of_isArrayIndex hindex).2
    · cases h
  rw [← hcanonical hkey, hcanonical hkey']

/-! ## The heap -/

/-- A value: a reference to a container, or anything else. -/
inductive Value (A : Type)
  | atom (a : A)
  | ref (r : Nat)
deriving DecidableEq

/-- A container: a plain `dict`, a `JsObject`, or a list of any kind. -/
inductive Container (A : Type)
  | dict (items : List (Key × Value A))
  | jsObject (items : List (Key × Value A))
  | list (values : List (Value A))
deriving DecidableEq

variable {A : Type}

namespace Container

def children : Container A → List (Value A)
  | dict items | jsObject items => items.map Prod.snd
  | list values => values

/-- A container whose keys are re-sequenced. -/
def reordered : Container A → Container A
  | dict items => dict (esOrder items)
  | jsObject items => jsObject (esOrder items)
  | list values => list values

theorem mem_children_reordered {container : Container A} {value : Value A} :
    value ∈ container.reordered.children ↔ value ∈ container.children := by
  cases container with
  | dict items => exact ((ordered_perm items).map Prod.snd).mem_iff
  | jsObject items => exact ((ordered_perm items).map Prod.snd).mem_iff
  | list values => exact .rfl

theorem reordered_reordered (container : Container A) : container.reordered.reordered = container.reordered := by
  cases container with
  | dict items => exact congrArg dict (ordered_idem items)
  | jsObject items => exact congrArg jsObject (ordered_idem items)
  | list values => rfl

end Container

/-- The containers, by their references. -/
abbrev Heap (A : Type) : Type := List (Container A)

/-- The containers that are not seen yet. -/
def unseen (h : Heap A) (seen : List Nat) : Nat := ((List.range h.length).filter fun r => r ∉ seen).length

theorem unseen_lt {h h' : Heap A} (hlength : h'.length = h.length) {seen : List Nat} {r : Nat} (hr : r < h.length)
    (hseen : r ∉ seen) : unseen h' (r :: seen) < unseen h seen := by
  have hsplit : ((List.range h.length).filter fun r' => r' ∉ r :: seen) =
      ((List.range h.length).filter fun r' => r' ∉ seen).filter (· ≠ r) := by
    rw [List.filter_filter]
    refine List.filter_congr fun r' _ => ?_
    simp
  rw [unseen, unseen, hlength, hsplit]
  refine List.length_filter_lt_length_iff_exists.mpr ⟨r, ?_, by simp⟩
  exact List.mem_filter.mpr ⟨List.mem_range.mpr hr, by simpa using hseen⟩

/-- `order_in_place`, with the top of `pending` first. -/
def orderFrom (h : Heap A) (pending : List (Value A)) (seen : List Nat) : Heap A :=
  match pending with
  | [] => h
  | .atom _ :: pending => orderFrom h pending seen
  | .ref r :: pending =>
    if _hseen : r ∈ seen then orderFrom h pending seen
    else
      match _hr : h[r]? with
      | none => orderFrom h pending seen
      | some container =>
        orderFrom (h.set r container.reordered) (container.reordered.children.reverse ++ pending) (r :: seen)
termination_by (unseen h seen, pending.length)
decreasing_by
  all_goals first
    | exact .right _ (Nat.lt_succ_self _)
    | exact .left _ _ (unseen_lt (List.length_set ..) (List.getElem?_eq_some_iff.mp _hr).1 _hseen)

def orderInPlace (h : Heap A) (value : Value A) : Heap A := orderFrom h [value] []

theorem orderFrom_dangling {h : Heap A} {r : Nat} (hr : h[r]? = none) (pending : List (Value A)) {seen : List Nat}
    (hseen : r ∉ seen) : orderFrom h (.ref r :: pending) seen = orderFrom h pending seen := by
  rw [orderFrom, dif_neg hseen]
  split
  · rfl
  · next container hsome => rw [hr] at hsome; cases hsome

theorem orderFrom_visit {h : Heap A} {r : Nat} {container : Container A} (hr : h[r]? = some container)
    (pending : List (Value A)) {seen : List Nat} (hseen : r ∉ seen) :
    orderFrom h (.ref r :: pending) seen =
      orderFrom (h.set r container.reordered) (container.reordered.children.reverse ++ pending) (r :: seen) := by
  rw [orderFrom, dif_neg hseen]
  split
  · next hnone => rw [hr] at hnone; cases hnone
  · next container' hsome => rw [Option.some.inj (hr.symm.trans hsome)]

/-- One container holds a reference to another. -/
def PointsTo (h : Heap A) (a b : Nat) : Prop := ∃ container, h[a]? = some container ∧ .ref b ∈ container.children

theorem pointsTo_set {h : Heap A} {r : Nat} {container : Container A} (hr : h[r]? = some container) {a b : Nat} :
    PointsTo (h.set r container.reordered) a b ↔ PointsTo h a b := by
  unfold PointsTo
  by_cases ha : r = a
  · subst ha
    have hlt : r < h.length := (List.getElem?_eq_some_iff.mp hr).1
    simp only [List.getElem?_set_self hlt, hr, Option.some.injEq, exists_eq_left', Container.mem_children_reordered]
  · rw [List.getElem?_set_ne ha]

/-- `order_in_place` leaves each container, or re-sequences one that a pending
value leads to. -/
theorem orderFrom_spec (h : Heap A) (pending : List (Value A)) (seen : List Nat) {reached : Nat → Prop}
    (hclosed : ∀ a b, reached a → PointsTo h a b → reached b) (hpending : ∀ b, .ref b ∈ pending → reached b) (r : Nat) :
    (orderFrom h pending seen)[r]? = h[r]? ∨
      reached r ∧ (orderFrom h pending seen)[r]? = h[r]?.map Container.reordered := by
  induction h, pending, seen using orderFrom.induct with
  | case1 h seen =>
    rw [orderFrom]
    exact .inl rfl
  | case2 h seen a pending ih =>
    rw [orderFrom]
    exact ih hclosed fun b hb => hpending b (List.mem_cons_of_mem _ hb)
  | case3 h seen r' pending hseen ih =>
    rw [orderFrom, dif_pos hseen]
    exact ih hclosed fun b hb => hpending b (List.mem_cons_of_mem _ hb)
  | case4 h seen r' pending hseen hr ih =>
    rw [orderFrom_dangling hr pending hseen]
    exact ih hclosed fun b hb => hpending b (List.mem_cons_of_mem _ hb)
  | case5 h seen r' pending hseen container hr ih =>
    rw [orderFrom_visit hr pending hseen]
    have hr' : reached r' := hpending r' (List.mem_cons_self ..)
    have hpending' : ∀ b, .ref b ∈ container.reordered.children.reverse ++ pending → reached b := by
      intro b hb
      cases List.mem_append.mp hb with
      | inl hb =>
        rw [List.mem_reverse, Container.mem_children_reordered] at hb
        exact hclosed r' b hr' ⟨container, hr, hb⟩
      | inr hb => exact hpending b (List.mem_cons_of_mem _ hb)
    have hlt : r' < h.length := (List.getElem?_eq_some_iff.mp hr).1
    have hrest := ih (fun a b ha hab => hclosed a b ha ((pointsTo_set hr).mp hab)) hpending'
    by_cases heq : r' = r
    · subst heq
      rw [List.getElem?_set_self hlt, Option.map_some, Container.reordered_reordered] at hrest
      refine .inr ⟨hr', ?_⟩
      rw [hr, Option.map_some]
      exact hrest.elim id fun h => h.2
    · rwa [List.getElem?_set_ne heq] at hrest

/-- Each container is left, or re-sequenced. -/
theorem orderInPlace_cases (h : Heap A) (value : Value A) (r : Nat) :
    (orderInPlace h value)[r]? = h[r]? ∨ (orderInPlace h value)[r]? = h[r]?.map Container.reordered :=
  (orderFrom_spec h [value] [] (fun _ _ _ _ => trivial) (fun _ _ => trivial) r).imp_right And.right

/-- A container is re-sequenced where the value refers to it. -/
theorem orderInPlace_ref {h : Heap A} {r : Nat} {container : Container A} (hr : h[r]? = some container) :
    (orderInPlace h (.ref r))[r]? = some container.reordered := by
  have hset : (h.set r container.reordered)[r]? = some container.reordered :=
    List.getElem?_set_self (List.getElem?_eq_some_iff.mp hr).1
  rw [orderInPlace, orderFrom_visit hr [] List.not_mem_nil]
  cases orderFrom_spec (h.set r container.reordered) (container.reordered.children.reverse ++ []) [r]
    (fun _ _ _ _ => trivial) (fun _ _ => trivial) r with
  | inl heq => rw [heq, hset]
  | inr heq => rw [heq.2, hset, Option.map_some, Container.reordered_reordered]

end MinionAgent.JsObject
