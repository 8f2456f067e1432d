import MinionAgent.Llm.ObjectHeap

/-!
# MinionAgent.Llm.JsObjectRuns

Runs of the operations of a `JsObject` (`llm/js_object.py`) beside those of a
plain `dict`.

A mapping that is passed to `update` is iterated while its values are attached,
and attaching a value re-sequences what it leads to, the mapping too.

* `setOrdered_esOrder` — an assignment keeps the order;
* `updateLive_keeps` — an update does, while the mapping stays as it is;
* `run_keeps` — a run does whose updates are undisturbed.
-/

namespace MinionAgent.JsObject

open Relation
open JsJson (keyInt)
open PropertyOrder

variable {A : Type}

/-! ## Operations -/

/-- The items of a dict of either kind. -/
def itemsOf (h : Heap A) (r : Nat) : List (Key × Value A) :=
  match h[r]? with
  | some (.dict items) | some (.jsObject items) => items
  | _ => []

/-- The items that an assignment leaves. -/
def setOrdered (items : List (Key × Value A)) (key : Key) (value : Value A) : List (Key × Value A) :=
  if key ∈ items.map Prod.fst ∨ ¬ isArrayIndex key then put items key value
  else
    let position := keyInt key
    putBefore (fun k => !isArrayIndex k || decide (position < keyInt k)) items key value

/-- `__setitem__`. -/
def setItem (h : Heap A) (self : Nat) (key : Key) (value : Value A) : Heap A :=
  let h := orderInPlace h value
  h.set self (.jsObject (setOrdered (itemsOf h self) key value))

/-- `__getitem__`, for what it does to the heap. -/
def getItem (h : Heap A) (self : Nat) (key : Key) : Heap A :=
  match (itemsOf h self).lookup key with
  | none => h
  | some value => orderInPlace h value

/-- Each pair assigned in turn. -/
def setItems (h : Heap A) (self : Nat) (pairs : List (Key × Value A)) : Heap A :=
  pairs.foldl (fun h item => setItem h self item.1 item.2) h

/-- The loop over the live items of a dict, from the i-th on; `size` of them
are due. -/
def updateLive (h : Heap A) (self other : Nat) : (size i : Nat) → Heap A
  | 0, _ => h
  | size + 1, i =>
    match (itemsOf h other)[i]? with
    | none => h
    | some (key, value) => updateLive (setItem h self key value) self other size (i + 1)

/-- What `update` is given: a dict or the view of its items, or other pairs. -/
inductive Operand (A : Type)
  | mapping (r : Nat)
  | pairs (pairs : List (Key × Value A))

/-- `other.items()` of a `JsObject` orders it first. -/
def beforeItems (h : Heap A) (r : Nat) : Heap A :=
  match h[r]? with
  | some (.jsObject _) => orderInPlace h (.ref r)
  | _ => h

/-- `update`. -/
def update (h : Heap A) (self : Nat) (other : Operand A) (kwargs : List (Key × Value A)) : Heap A :=
  let h :=
    match other with
    | .mapping r =>
      let h := beforeItems h r
      updateLive h self r (itemsOf h r).length 0
    | .pairs pairs => setItems h self pairs
  setItems h self kwargs

/-- The object, and what it shares its values with. -/
structure State (A : Type) where
  heap : Heap A := [.jsObject []]
  self : Nat := 0

def State.items (s : State A) : List (Key × Value A) := itemsOf s.heap s.self

/-- An operation of the object, which its copy replaces, or what other code does
meanwhile to another container. -/
inductive Operation (A : Type)
  | setItem (key : Key) (value : Value A)
  | delItem (key : Key)
  | pop (key : Key)
  | setdefault (key : Key) (default : Value A)
  | update (other : Operand A) (kwargs : List (Key × Value A))
  | ior (other : Operand A)
  | copy
  | allocate (container : Container A)
  | assign (r : Nat) (container : Container A)

/-- One operation; a key that is missing is an error and changes nothing. -/
def State.step (s : State A) : Operation A → State A
  | .setItem key value => { s with heap := JsObject.setItem s.heap s.self key value }
  | .delItem key | .pop key => { s with heap := s.heap.set s.self (.jsObject (erase (itemsOf s.heap s.self) key)) }
  | .setdefault key default =>
    let heap :=
      if key ∈ (itemsOf s.heap s.self).map Prod.fst then s.heap else JsObject.setItem s.heap s.self key default
    { s with heap := getItem heap s.self key }
  | .update other kwargs => { s with heap := JsObject.update s.heap s.self other kwargs }
  | .ior other => { s with heap := JsObject.update s.heap s.self other [] }
  | .copy =>
    let heap := beforeItems s.heap s.self
    let self := heap.length
    { heap := updateLive (heap ++ [.jsObject []]) self s.self (itemsOf heap s.self).length 0, self }
  | .allocate container => { s with heap := s.heap ++ [container] }
  | .assign r container => if r = s.self then s else { s with heap := s.heap.set r container }

/-! ## A plain dict -/

/-- The items that an operand lists. -/
def Operand.items (h : Heap A) : Operand A → List (Key × Value A)
  | .mapping r => itemsOf (beforeItems h r) r
  | .pairs given => given

def putAll (plain pairs : List (Key × Value A)) : List (Key × Value A) :=
  pairs.foldl (fun plain item => put plain item.1 item.2) plain

/-- The same operation of a dict that keeps the order of insertion. -/
def plainStep (h : Heap A) (plain : List (Key × Value A)) : Operation A → List (Key × Value A)
  | .setItem key value => put plain key value
  | .delItem key | .pop key => erase plain key
  | .setdefault key default => if key ∈ plain.map Prod.fst then plain else put plain key default
  | .update other kwargs => putAll (putAll plain (other.items h)) kwargs
  | .ior other => putAll plain (other.items h)
  | .copy | .allocate _ | .assign _ _ => plain

/-- Both, from empty ones. -/
def run (s : State A) (plain : List (Key × Value A)) : List (Operation A) → State A × List (Key × Value A)
  | [] => (s, plain)
  | operation :: operations => run (s.step operation) (plainStep s.heap plain operation) operations

/-! ## Assignments -/

variable {h : Heap A} {self : Nat} {plain : List (Key × Value A)}

/-- An assignment keeps the order. -/
theorem setOrdered_esOrder (hnodup : (plain.map Prod.fst).Nodup) (key : Key) (value : Value A) :
    setOrdered (esOrder plain) key value = esOrder (put plain key value) := by
  unfold setOrdered
  by_cases hmem : key ∈ plain.map Prod.fst
  · rw [if_pos (.inl (mem_keys_ordered.mpr hmem)), esOrder, esOrder, ordered_put_of_mem hmem]
  · have hmem' : key ∉ (esOrder plain).map Prod.fst := fun h => hmem (mem_keys_ordered.mp h)
    cases hindex : isArrayIndex key with
    | false =>
      rw [if_pos (.inr Bool.false_ne_true), put_of_notMem hmem', esOrder, esOrder,
        ordered_put_other hmem (by rw [index?, hindex]; rfl)]
    | true =>
      have hkey : index? key = some (keyInt key) := by rw [index?, hindex]; rfl
      have hnew : ¬ (key ∈ (esOrder plain).map Prod.fst ∨ ¬ true = true) := by simpa using hmem'
      have hnodup' : ((esOrder plain).map Prod.fst).Nodup := nodup_ordered hnodup
      rw [if_neg hnew, putBefore_eq hnodup' hmem', esOrder, esOrder,
        ordered_put_index index?_injective hnodup hmem hkey]
      have hbefore : ∀ item ∈ ordered index? plain,
          (!(!isArrayIndex item.1 || decide (keyInt key < keyInt item.1))) = (index? item.1).any (· < keyInt key) := by
        intro item hitem
        unfold index?
        cases hitemIndex : isArrayIndex item.1 with
        | false => rfl
        | true =>
          -- Another array index is another number.
          have hne : keyInt item.1 ≠ keyInt key := by
            intro heq
            have hkey' : index? item.1 = some (keyInt key) := by rw [index?, hitemIndex, if_pos rfl, heq]
            have hsame := index?_injective _ _ _ hkey' hkey
            exact hmem' (hsame ▸ List.mem_map_of_mem hitem)
          simp only [Bool.not_true, Bool.false_or, if_true, Option.any_some]
          grind
      rw [List.filter_congr hbefore]
      congr 2
      refine List.filter_congr fun item hitem => ?_
      rw [← hbefore item hitem, Bool.not_not]

/-- An object is in order, as a plain dict has its items. -/
structure Keeps (h : Heap A) (obj : Nat) (plain : List (Key × Value A)) : Prop where
  ordered : h[obj]? = some (.jsObject (esOrder plain))
  nodup : (plain.map Prod.fst).Nodup

theorem Keeps.itemsOf_eq (hk : Keeps h self plain) : itemsOf h self = esOrder plain := by
  rw [itemsOf, hk.ordered]

theorem Keeps.orderInPlace (hk : Keeps h self plain) (value : Value A) : Keeps (orderInPlace h value) self plain where
  ordered := by
    have hidem : (Container.jsObject (esOrder plain)).reordered = .jsObject (esOrder plain) :=
      congrArg Container.jsObject (ordered_idem plain)
    cases orderInPlace_cases h value self with
    | inl heq => rw [heq, hk.ordered]
    | inr heq => rw [heq, hk.ordered, Option.map_some, hidem]
  nodup := hk.nodup

theorem Keeps.set {plain' : List (Key × Value A)} (hk : Keeps h self plain)
    (hnodup : (plain'.map Prod.fst).Nodup) : Keeps (h.set self (.jsObject (esOrder plain'))) self plain' where
  ordered := List.getElem?_set_self (List.getElem?_eq_some_iff.mp hk.ordered).1
  nodup := hnodup

theorem Keeps.setItem (hk : Keeps h self plain) (key : Key) (value : Value A) :
    Keeps (setItem h self key value) self (put plain key value) := by
  have hordered := hk.orderInPlace value
  rw [JsObject.setItem, hordered.itemsOf_eq, setOrdered_esOrder hk.nodup]
  exact hordered.set (nodup_put hk.nodup key value)

theorem Keeps.setItems (hk : Keeps h self plain) (pairs : List (Key × Value A)) :
    Keeps (setItems h self pairs) self (putAll plain pairs) := by
  induction pairs generalizing h plain with
  | nil => exact hk
  | cons item pairs ih => exact ih (hk.setItem item.1 item.2)

theorem Keeps.erase (hk : Keeps h self plain) (key : Key) :
    Keeps (h.set self (.jsObject (erase (itemsOf h self) key))) self (erase plain key) := by
  rw [hk.itemsOf_eq, esOrder, ← ordered_erase index?_injective hk.nodup]
  exact hk.set (nodup_erase hk.nodup key)

theorem Keeps.getItem (hk : Keeps h self plain) (key : Key) : Keeps (getItem h self key) self plain := by
  unfold JsObject.getItem
  split
  · exact hk
  · exact hk.orderInPlace _

/-! ## Updates -/

/-- An update whose mapping keeps its items while they are assigned. -/
theorem updateLive_keeps {other : Nat} {items : List (Key × Value A)}
    {during : Heap A → List (Key × Value A) → Prop}
    (hitems : ∀ h plain, Keeps h self plain → during h plain → itemsOf h other = items)
    (hstep : ∀ h plain item, Keeps h self plain → during h plain → item ∈ items.dropLast →
      during (setItem h self item.1 item.2) (put plain item.1 item.2))
    (size i : Nat) (hsize : i + size = items.length) (h : Heap A) (plain : List (Key × Value A))
    (hk : Keeps h self plain) (hduring : during h plain) :
    Keeps (updateLive h self other size i) self (putAll plain (items.drop i)) := by
  induction size generalizing i h plain with
  | zero =>
    rw [List.drop_of_length_le (by omega)]
    exact hk
  | succ size ih =>
    have hi : i < items.length := by omega
    rw [updateLive, hitems h plain hk hduring, List.getElem?_eq_getElem hi, List.drop_eq_getElem_cons hi]
    have hk' := hk.setItem items[i].1 items[i].2
    cases size with
    | zero =>
      rw [List.drop_of_length_le (by omega)]
      exact hk'
    | succ size =>
      have hmem : items[i] ∈ items.dropLast := by
        rw [← List.getElem_dropLast (by rw [List.length_dropLast]; omega)]
        exact List.getElem_mem _
      exact ih (i + 1) (by omega) _ _ hk' (hstep h plain _ hk hduring hmem)

theorem itemsOf_reordered {h' : Heap A} {r : Nat} (heq : h'[r]? = h[r]?.map Container.reordered) :
    itemsOf h' r = esOrder (itemsOf h r) := by
  unfold itemsOf
  rw [heq]
  cases h[r]? with
  | none => rfl
  | some container => cases container <;> rfl

theorem itemsOf_setItem {other : Nat} (hother : other ≠ self) (key : Key) (value : Value A) :
    itemsOf (setItem h self key value) other = itemsOf (orderInPlace h value) other := by
  unfold itemsOf setItem
  rw [List.getElem?_set_ne hother.symm]

/-- A mapping in order is not re-sequenced. -/
theorem itemsOf_setItem_of_ordered {other : Nat} (hother : other ≠ self)
    (hordered : esOrder (itemsOf h other) = itemsOf h other) (key : Key) (value : Value A) :
    itemsOf (setItem h self key value) other = itemsOf h other := by
  rw [itemsOf_setItem hother]
  cases orderInPlace_cases h value other with
  | inl heq => rw [itemsOf, itemsOf, heq]
  | inr heq => rw [itemsOf_reordered heq, hordered]

/-- An update from a mapping that is in order. -/
theorem Keeps.updateLive_ordered {other : Nat} (hk : Keeps h self plain) (hother : other ≠ self)
    (hordered : esOrder (itemsOf h other) = itemsOf h other) :
    Keeps (updateLive h self other (itemsOf h other).length 0) self (putAll plain (itemsOf h other)) := by
  refine updateLive_keeps (fun h' _ _ hitems => hitems) (fun h' plain' item _ hitems _ => ?_) _ 0 (Nat.zero_add _) h
    plain hk rfl
  rw [← hitems] at hordered
  rw [itemsOf_setItem_of_ordered hother hordered, hitems]

/-- An update of an object from itself. -/
theorem Keeps.updateLive_self (hk : Keeps h self plain) :
    Keeps (updateLive h self self (itemsOf h self).length 0) self (putAll plain (itemsOf h self)) := by
  refine @updateLive_keeps _ self self _ (fun _ plain' => plain' = plain) (fun h' plain' hk' hplain => ?_)
    (fun h' plain' item hk' hplain hitem => ?_) _ 0 (Nat.zero_add _) h plain hk rfl
  · rw [hk'.itemsOf_eq, hk.itemsOf_eq, hplain]
  · rw [hk.itemsOf_eq] at hitem
    have hmem : item ∈ plain := (ordered_perm plain).mem_iff.mp ((List.dropLast_sublist _).mem hitem)
    rw [hplain, put_of_mem_item hk.nodup hmem]

theorem mem_values_put {key : Key} {value other : Value A} (h : other ∈ (put plain key value).map Prod.snd) :
    other = value ∨ other ∈ plain.map Prod.snd := by
  obtain ⟨item, hitem, rfl⟩ := List.mem_map.mp h
  unfold put at hitem
  split at hitem
  · obtain ⟨item', hitem', rfl⟩ := List.mem_map.mp hitem
    split
    · exact .inl rfl
    · exact .inr (List.mem_map_of_mem hitem')
  · cases List.mem_append.mp hitem with
    | inl hitem => exact .inr (List.mem_map_of_mem hitem)
    | inr hitem => exact .inl (congrArg Prod.snd (List.mem_singleton.mp hitem))

/-- What is reached from some values, and not from a mapping that is apart from
them. -/
structure Apart (h : Heap A) (values : List (Value A)) (other : Nat) (reached : Nat → Prop) : Prop where
  closed : ∀ a b, reached a → PointsTo h a b → reached b
  values : ∀ b, .ref b ∈ values → reached b
  apart : ¬ reached other

/-- Attaching one of the values leaves the mapping apart. -/
theorem Apart.setItem {other : Nat} {values : List (Value A)} {reached : Nat → Prop}
    (ha : Apart h values other reached) (hk : Keeps h self plain) (key : Key) {value : Value A}
    (hvalue : value ∈ values) : Apart (setItem h self key value) values other reached where
  closed a b hreached hpoints := by
    obtain ⟨container, hcontainer, hchild⟩ := hpoints
    by_cases hself : a = self
    · subst hself
      rw [(hk.setItem key value).ordered] at hcontainer
      obtain rfl := Option.some.inj hcontainer
      have hchild' : .ref b ∈ (put plain key value).map Prod.snd := ((ordered_perm _).map Prod.snd).mem_iff.mp hchild
      cases mem_values_put hchild' with
      | inl heq => exact ha.values b (heq ▸ hvalue)
      | inr hold => exact ha.closed a b hreached ⟨_, hk.ordered, ((ordered_perm _).map Prod.snd).mem_iff.mpr hold⟩
    · rw [JsObject.setItem, List.getElem?_set_ne (Ne.symm hself)] at hcontainer
      refine ha.closed a b hreached ?_
      cases orderInPlace_cases h value a with
      | inl heq => exact ⟨container, heq ▸ hcontainer, hchild⟩
      | inr heq =>
        rw [heq] at hcontainer
        obtain ⟨container', hcontainer', rfl⟩ := Option.map_eq_some_iff.mp hcontainer
        exact ⟨container', hcontainer', Container.mem_children_reordered.mp hchild⟩
  values := ha.values
  apart := ha.apart

/-- An update from a mapping that none of its values leads back to, but for the
last one. -/
theorem Keeps.updateLive_apart {other : Nat} {items : List (Key × Value A)} (hk : Keeps h self plain)
    (hdict : h[other]? = some (.dict items)) {reached : Nat → Prop}
    (ha : Apart h (items.dropLast.map Prod.snd) other reached) :
    Keeps (updateLive h self other items.length 0) self (putAll plain items) := by
  have hother : other ≠ self := by
    intro heq
    rw [heq, hk.ordered] at hdict
    cases hdict
  refine @updateLive_keeps _ self other items
    (fun h' _ => h'[other]? = some (.dict items) ∧ Apart h' (items.dropLast.map Prod.snd) other reached)
    (fun h' plain' hk' hduring => ?_) (fun h' plain' item hk' hduring hitem => ?_) _ 0 (Nat.zero_add _) h plain hk
    ⟨hdict, ha⟩
  · rw [itemsOf, hduring.1]
  · have hvalue : item.2 ∈ items.dropLast.map Prod.snd := List.mem_map_of_mem hitem
    refine ⟨?_, hduring.2.setItem hk' item.1 hvalue⟩
    rw [JsObject.setItem, List.getElem?_set_ne hother.symm, ← hduring.1]
    refine (orderFrom_spec h' [item.2] [] hduring.2.closed (fun b hb => ?_) other).resolve_right ?_
    · exact hduring.2.values b (List.mem_singleton.mp hb ▸ hvalue)
    · exact fun h => hduring.2.apart h.1

/-! ## Runs -/

/-- A dict that an update is given is in order, or none of its values but the
last leads back to it. -/
def Operand.Undisturbed (h : Heap A) : Operand A → Prop
  | .mapping r => ∀ items, h[r]? = some (.dict items) →
      esOrder items = items ∨ ∀ b, .ref b ∈ items.dropLast.map Prod.snd → ¬ ReflTransGen (PointsTo h) b r
  | .pairs _ => True

def Operation.Undisturbed (h : Heap A) : Operation A → Prop
  | .update other _ | .ior other => other.Undisturbed h
  | _ => True

/-- Every step of a run is undisturbed. -/
def Undisturbed (s : State A) : List (Operation A) → Prop
  | [] => True
  | operation :: operations => operation.Undisturbed s.heap ∧ Undisturbed (s.step operation) operations

theorem apart_of_not_reached {values : List (Value A)} {r : Nat}
    (hapart : ∀ b, .ref b ∈ values → ¬ ReflTransGen (PointsTo h) b r) :
    Apart h values r fun b => ∃ a, .ref a ∈ values ∧ ReflTransGen (PointsTo h) a b where
  closed a b hreached hpoints := by
    obtain ⟨c, hc, hca⟩ := hreached
    exact ⟨c, hc, hca.tail hpoints⟩
  values b hb := ⟨b, hb, .refl⟩
  apart := fun ⟨b, hb, hreaches⟩ => hapart b hb hreaches

/-- `other.items()` of a `JsObject` leaves it in order. -/
theorem ordered_beforeItems {r : Nat} {items : List (Key × Value A)} (hr : h[r]? = some (.jsObject items)) :
    (beforeItems h r)[r]? = some (.jsObject (esOrder items)) := by
  rw [beforeItems, hr]
  exact orderInPlace_ref hr

theorem Keeps.beforeItems (hk : Keeps h self plain) (r : Nat) : Keeps (beforeItems h r) self plain := by
  unfold JsObject.beforeItems
  split
  · exact hk.orderInPlace _
  · exact hk

/-- An update from an undisturbed mapping. -/
theorem Keeps.updateLive {r : Nat} (hk : Keeps h self plain) (hundisturbed : (Operand.mapping r).Undisturbed h) :
    Keeps (JsObject.updateLive (JsObject.beforeItems h r) self r (itemsOf (JsObject.beforeItems h r) r).length 0) self
      (putAll plain (itemsOf (JsObject.beforeItems h r) r)) := by
  cases hr : h[r]? with
  | none =>
    have hbefore : JsObject.beforeItems h r = h := by rw [JsObject.beforeItems, hr]
    have hitems : itemsOf h r = [] := by rw [itemsOf, hr]
    rw [hbefore, hitems]
    exact hk
  | some container =>
    cases container with
    | list values =>
      have hbefore : JsObject.beforeItems h r = h := by rw [JsObject.beforeItems, hr]
      have hitems : itemsOf h r = [] := by rw [itemsOf, hr]
      rw [hbefore, hitems]
      exact hk
    | dict items =>
      have hbefore : JsObject.beforeItems h r = h := by rw [JsObject.beforeItems, hr]
      have hitems : itemsOf h r = items := by rw [itemsOf, hr]
      have hother : r ≠ self := by
        intro heq
        rw [heq, hk.ordered] at hr
        cases hr
      rw [hbefore]
      cases hundisturbed items hr with
      | inl hordered => exact hk.updateLive_ordered hother (hitems.symm ▸ hordered)
      | inr hapart =>
        rw [hitems]
        exact hk.updateLive_apart hr (apart_of_not_reached hapart)
    | jsObject items =>
      have hbefore := ordered_beforeItems hr
      have hitems : itemsOf (JsObject.beforeItems h r) r = esOrder items := by rw [itemsOf, hbefore]
      by_cases hother : r = self
      · subst hother
        exact (hk.beforeItems r).updateLive_self
      · refine (hk.beforeItems r).updateLive_ordered hother ?_
        rw [hitems]
        exact ordered_idem items

theorem Keeps.update (hk : Keeps h self plain) {other : Operand A} (hundisturbed : other.Undisturbed h)
    (kwargs : List (Key × Value A)) :
    Keeps (JsObject.update h self other kwargs) self (putAll (putAll plain (other.items h)) kwargs) := by
  cases other with
  | mapping r => exact (hk.updateLive hundisturbed).setItems kwargs
  | pairs pairs => exact (hk.setItems pairs).setItems kwargs

theorem Keeps.append (hk : Keeps h self plain) (container : Container A) : Keeps (h ++ [container]) self plain where
  ordered := by
    rw [List.getElem?_append_left (List.getElem?_eq_some_iff.mp hk.ordered).1, hk.ordered]
  nodup := hk.nodup

/-- A copy has the items of the object. -/
theorem Keeps.copy (hk : Keeps h self plain) :
    Keeps (JsObject.updateLive (h ++ [.jsObject []]) h.length self (itemsOf h self).length 0) h.length plain := by
  have hnew : Keeps (h ++ [.jsObject []]) h.length [] := ⟨List.getElem?_concat_length, List.nodup_nil⟩
  have hold := hk.append (.jsObject [])
  have hother : self ≠ h.length := Nat.ne_of_lt (List.getElem?_eq_some_iff.mp hk.ordered).1
  have hordered : esOrder (itemsOf (h ++ [.jsObject []]) self) = itemsOf (h ++ [.jsObject []]) self := by
    rw [hold.itemsOf_eq]
    exact ordered_idem plain
  have hcopy := hnew.updateLive_ordered hother hordered
  have hnodup : ((esOrder plain).map Prod.fst).Nodup := nodup_ordered hk.nodup
  have hput : putAll [] (esOrder plain) = esOrder plain := by
    rw [putAll, foldl_put_new hnodup (by simp), List.nil_append]
  rw [hold.itemsOf_eq, hput] at hcopy
  rw [hk.itemsOf_eq]
  refine ⟨hcopy.ordered.trans ?_, hk.nodup⟩
  exact congrArg (some ∘ Container.jsObject) (ordered_idem plain)

/-- A step keeps the order, unless its mapping is disturbed. -/
theorem step_keeps {s : State A} (hk : Keeps s.heap s.self plain) {operation : Operation A}
    (hundisturbed : operation.Undisturbed s.heap) :
    Keeps (s.step operation).heap (s.step operation).self (plainStep s.heap plain operation) := by
  cases operation with
  | setItem key value => exact hk.setItem key value
  | delItem key => exact hk.erase key
  | pop key => exact hk.erase key
  | setdefault key default =>
    have hmem : key ∈ (itemsOf s.heap s.self).map Prod.fst ↔ key ∈ plain.map Prod.fst := by
      rw [hk.itemsOf_eq]
      exact mem_keys_ordered
    simp only [State.step, plainStep, hmem]
    split
    · exact hk.getItem key
    · exact (hk.setItem key default).getItem key
  | update other kwargs => exact hk.update hundisturbed kwargs
  | ior other => exact hk.update hundisturbed []
  | copy => exact (hk.beforeItems s.self).copy
  | allocate container => exact hk.append container
  | assign r container =>
    simp only [State.step, plainStep]
    split
    · exact hk
    · next hne => exact ⟨(List.getElem?_set_ne hne).trans hk.ordered, hk.nodup⟩

/-- An undisturbed run keeps the order. -/
theorem run_keeps {s : State A} (hk : Keeps s.heap s.self plain) {operations : List (Operation A)}
    (hundisturbed : Undisturbed s operations) :
    Keeps (run s plain operations).1.heap (run s plain operations).1.self (run s plain operations).2 := by
  induction operations generalizing s plain with
  | nil => exact hk
  | cons operation operations ih => exact ih (step_keeps hk hundisturbed.1) hundisturbed.2

theorem keeps_empty : Keeps ({} : State A).heap ({} : State A).self [] := ⟨rfl, List.nodup_nil⟩

end MinionAgent.JsObject
