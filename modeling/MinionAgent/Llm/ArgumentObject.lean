import MinionAgent.Library.Surrogates
import MinionAgent.Llm.JsObjectRuns

/-!
# MinionAgent.Llm.ArgumentObject

Argument objects in the Rust binding (`argument_object.rs`), whose keys are
UTF-16 code units, and that they enumerate as those in Python do.

* `ArgumentObject.Holds`, `run_holds` — the two parts of an object are those of
  the order of a plain map;
* `arrayIndex_eq` — the same keys are indices;
* `jsObject_enumerates` — both bindings enumerate as an ECMAScript object.
-/

namespace MinionAgent

open PropertyOrder

namespace Rust

abbrev Units : Type := List UInt16

/-- The loop of `array_index`; ten digits fit in 64 bits. -/
def decimalValue (units : Units) (number : Nat) : Option Nat :=
  match units with
  | [] => some number
  | unit :: units =>
    if 48 ≤ unit.toNat ∧ unit.toNat ≤ 57 then decimalValue units (number * 10 + (unit.toNat - 48)) else none

/-- `array_index`. -/
def arrayIndex (units : Units) : Option Nat :=
  if units.isEmpty || units.length > 10 || (units.length > 1 && units.head? == some 48) then none
  else (decimalValue units 0).filter (· < 4294967295)

/-! ## The same keys are indices -/

def isDigitUnit (unit : UInt16) : Bool := 48 ≤ unit.toNat && unit.toNat ≤ 57

theorem decode16_digits {units : Units} (h : units.all isDigitUnit = true) :
    decode16 units = units.map fun unit => Rfc8259.codePoint unit.toNat := by
  induction units with
  | nil => rfl
  | cons unit units ih =>
    rw [List.all_cons, Bool.and_eq_true] at h
    have hunit := h.1
    simp only [isDigitUnit, Bool.and_eq_true, decide_eq_true_eq] at hunit
    rw [decode16_cons (.inl (by omega)), ih h.2, List.map_cons]

theorem all_isAsciiDigit_decode16 (units : Units) :
    (decode16 units).all JsJson.isAsciiDigit = units.all isDigitUnit := by
  refine Bool.eq_iff_iff.mpr ⟨fun h => ?_, fun h => ?_⟩
  · rw [List.all_eq_true] at h ⊢
    intro unit hunit
    rw [← toUnits_decode16 units, Utf16.toUnits, List.mem_flatMap] at hunit
    obtain ⟨c, hc, hunit⟩ := hunit
    have hdigit := h c hc
    simp only [JsJson.isAsciiDigit, Bool.and_eq_true, decide_eq_true_eq] at hdigit
    rw [Utf16.unitsOf, if_pos (by omega), List.mem_singleton] at hunit
    have htoNat : (c.val.toUInt16).toNat = c.val := Nat.mod_eq_of_lt (by omega)
    rw [hunit, isDigitUnit, htoNat, Bool.and_eq_true, decide_eq_true_eq, decide_eq_true_eq]
    exact hdigit
  · rw [decode16_digits h, List.all_map, List.all_eq_true]
    intro unit hunit
    have hdigit := List.all_eq_true.mp h unit hunit
    have hlt := unit.toNat_lt
    simp only [isDigitUnit, Bool.and_eq_true, decide_eq_true_eq] at hdigit
    simp only [Function.comp_apply, JsJson.isAsciiDigit, codePoint_val (show unit.toNat < 0x110000 by omega),
      Bool.and_eq_true, decide_eq_true_eq]
    exact hdigit

theorem decimalValue_eq (units : Units) (number : Nat) : decimalValue units number =
    if units.all isDigitUnit then some (units.foldl (fun number unit => number * 10 + (unit.toNat - 48)) number)
    else none := by
  induction units generalizing number with
  | nil => rfl
  | cons unit units ih =>
    rw [decimalValue, List.all_cons, List.foldl_cons, ih]
    cases hunit : isDigitUnit unit with
    | true =>
      simp only [isDigitUnit, Bool.and_eq_true, decide_eq_true_eq] at hunit
      rw [if_pos hunit, Bool.true_and]
    | false =>
      rw [if_neg fun h => by simp [isDigitUnit, h] at hunit, Bool.false_and, if_neg Bool.false_ne_true]

theorem keyInt_decode16 {units : Units} (h : units.all isDigitUnit = true) :
    JsJson.keyInt (decode16 units) = units.foldl (fun number unit => number * 10 + (unit.toNat - 48)) 0 := by
  rw [decode16_digits h, JsJson.keyInt, List.foldl_map]
  congr 1
  funext number unit
  have hlt := unit.toNat_lt
  rw [codePoint_val (by omega)]

/-- The same keys are the same indices. -/
theorem arrayIndex_eq (units : Units) : arrayIndex units = JsObject.index? (decode16 units) := by
  rw [arrayIndex, JsObject.index?, JsObject.isArrayIndex, all_isAsciiDigit_decode16, decimalValue_eq]
  cases hdigits : units.all isDigitUnit with
  | false => simp
  | true =>
    have hlength : (decode16 units).length = units.length := by rw [decode16_digits hdigits, List.length_map]
    have hempty : (decode16 units).isEmpty = units.isEmpty := by rw [decode16_digits hdigits, List.isEmpty_map]
    have hhead : ((decode16 units).head? == some 0x30) = (units.head? == some 48) := by
      rw [decode16_digits hdigits]
      cases units with
      | nil => rfl
      | cons unit units =>
        have hlt := unit.toNat_lt
        refine Bool.eq_iff_iff.mpr ?_
        rw [List.map_cons, List.head?_cons, List.head?_cons, beq_iff_eq, beq_iff_eq, Option.some.injEq,
          Option.some.injEq, ← Fin.val_inj, codePoint_val (by omega), ← UInt16.toNat_inj]
        rfl
    rw [keyInt_decode16 hdigits, hlength, hempty, hhead, if_pos rfl, JsObject.MAX_ARRAY_INDEX,
      JsObject.MAX_ARRAY_INDEX_DIGITS]
    generalize units.foldl (fun number unit => number * 10 + (unit.toNat - 48)) 0 = number
    have hbound : number ≤ 4294967294 ↔ number < 4294967295 := Nat.lt_succ_iff.symm
    cases units.isEmpty <;> cases decide (units.length > 10) <;>
      cases decide (units.length > 1) && units.head? == some 48 <;> simp [Option.filter, hbound]

theorem arrayIndex_injective : Injective arrayIndex := by
  intro units units' i h h'
  rw [arrayIndex_eq] at h h'
  exact decode16_injective (JsObject.index?_injective _ _ i h h')

/-! ## Objects -/

/-- `BTreeMap`'s insertion of a key that it lacks, in the order of the keys. -/
def btreeInsert {E : Type} (entries : List (Nat × E)) (index : Nat) (entry : E) : List (Nat × E) :=
  entries.filter (·.1 < index) ++ (index, entry) :: entries.filter (index < ·.1)

/-- `ArgumentObject`: the entries of a `BTreeMap` and of an `IndexMap`. -/
structure ArgumentObject (V : Type) where
  indices : List (Nat × (Units × V)) := []
  ordinary : List (Units × V) := []

namespace ArgumentObject

variable {V : Type}

/-- `insert`, for what it does to the object. -/
def insert (object : ArgumentObject V) (key : Units) (value : V) : ArgumentObject V :=
  match arrayIndex key with
  | some index =>
    match object.indices.lookup index with
    | none => { object with indices := btreeInsert object.indices index (key, value) }
    | some (old, _) =>
      { object with indices :=
          object.indices.map fun entry => if entry.1 = index then (index, (old, value)) else entry }
  | none => { object with ordinary := put object.ordinary key value }

/-- `get`. -/
def get (object : ArgumentObject V) (key : Units) : Option V :=
  match arrayIndex key with
  | some index => (object.indices.lookup index).map Prod.snd
  | none => object.ordinary.lookup key

/-- `remove`, for what it does to the object. -/
def remove (object : ArgumentObject V) (key : Units) : ArgumentObject V :=
  match arrayIndex key with
  | some index => { object with indices := object.indices.filter (·.1 ≠ index) }
  | none => { object with ordinary := erase object.ordinary key }

/-- `entry_or_insert`, for what it does to the object. -/
def entryOrInsert (object : ArgumentObject V) (key : Units) (value : V) : ArgumentObject V :=
  if (object.get key).isSome then object else object.insert key value

/-- `iter`. -/
def iter (object : ArgumentObject V) : List (Units × V) := object.indices.map Prod.snd ++ object.ordinary

inductive Operation (V : Type)
  | insert (key : Units) (value : V)
  | remove (key : Units)
  | entryOrInsert (key : Units) (value : V)

def step (object : ArgumentObject V) : Operation V → ArgumentObject V
  | .insert key value => object.insert key value
  | .remove key => object.remove key
  | .entryOrInsert key value => object.entryOrInsert key value

/-- The same operation of a map in insertion order. -/
def plainStep (plain : List (Units × V)) : Operation V → List (Units × V)
  | .insert key value => put plain key value
  | .remove key => erase plain key
  | .entryOrInsert key value => if key ∈ plain.map Prod.fst then plain else put plain key value

def run (operations : List (Operation V)) : ArgumentObject V := operations.foldl step {}

def plainRun (operations : List (Operation V)) : List (Units × V) := operations.foldl plainStep []

/-! ## The parts of an object -/

/-- The entry of an item among the indices. -/
def entryOf (item : Units × V) : Nat × (Units × V) := ((arrayIndex item.1).getD 0, item)

/-- An object has the indexed items of a plain map, and its other items. -/
structure Holds (object : ArgumentObject V) (plain : List (Units × V)) : Prop where
  indices : object.indices = (indexed arrayIndex plain).map entryOf
  ordinary : object.ordinary = others arrayIndex plain
  nodup : (plain.map Prod.fst).Nodup

variable {object : ArgumentObject V} {plain : List (Units × V)} {key : Units} {i : Nat}

theorem Holds.iter_eq (h : Holds object plain) : object.iter = ordered arrayIndex plain := by
  have hentry : ∀ item : Units × V, (Prod.snd ∘ entryOf) item = id item := fun _ => rfl
  rw [iter, h.indices, h.ordinary, ordered, List.map_map, List.map_congr_left fun item _ => hentry item, List.map_id]

theorem holds_empty : Holds ({} : ArgumentObject V) [] := ⟨rfl, rfl, List.nodup_nil⟩

/-- The entry of a key has its index, and no other entry does. -/
theorem entryOf_eq_iff {item : Units × V} (hitem : item ∈ indexed arrayIndex plain)
    (hkey : arrayIndex key = some i) : (entryOf item).1 = i ↔ item.1 = key := by
  obtain ⟨j, hj⟩ := Option.isSome_iff_exists.mp (isSome_of_mem_indexed hitem)
  rw [entryOf, hj, Option.getD_some]
  constructor
  · intro heq
    exact arrayIndex_injective _ _ i (heq ▸ hj) hkey
  · intro heq
    rw [heq, hkey] at hj
    exact (Option.some.inj hj).symm

theorem mem_indexed {item : Units × V} (hitem : item ∈ plain) (hkey : arrayIndex item.1 = some i) :
    item ∈ indexed arrayIndex plain :=
  (indexed_perm plain).mem_iff.mpr (List.mem_filter.mpr ⟨hitem, by rw [hkey]; rfl⟩)

/-- A key without an entry is new. -/
theorem Holds.notMem_of_lookup (h : Holds object plain) (hkey : arrayIndex key = some i)
    (hlookup : object.indices.lookup i = none) : key ∉ plain.map Prod.fst := by
  intro hmem
  obtain ⟨item, hitem, rfl⟩ := List.mem_map.mp hmem
  have hentry := mem_indexed hitem hkey
  rw [h.indices, List.lookup_eq_none_iff] at hlookup
  have hne := hlookup (entryOf item) (List.mem_map_of_mem hentry)
  rw [(entryOf_eq_iff hentry hkey).mpr rfl] at hne
  simp at hne

/-- An entry is that of its key. -/
theorem Holds.mem_of_lookup (h : Holds object plain) (hkey : arrayIndex key = some i) {item : Units × V}
    (hlookup : object.indices.lookup i = some item) : item.1 = key ∧ item ∈ plain := by
  rw [h.indices] at hlookup
  obtain ⟨front, back, hsplit, _⟩ := List.lookup_eq_some_iff.mp hlookup
  have hentry : (i, item) ∈ (indexed arrayIndex plain).map entryOf := hsplit ▸ by simp
  obtain ⟨item', hitem', heq⟩ := List.mem_map.mp hentry
  obtain rfl : item' = item := congrArg Prod.snd heq
  exact ⟨(entryOf_eq_iff hitem' hkey).mp (congrArg Prod.fst heq),
    (List.mem_filter.mp ((indexed_perm plain).mem_iff.mp hitem')).1⟩

theorem insert_ordinary (hkey : arrayIndex key = none) (value : V) :
    object.insert key value = { object with ordinary := put object.ordinary key value } := by
  simp only [insert, hkey]

theorem insert_vacant (hkey : arrayIndex key = some i) (hlookup : object.indices.lookup i = none) (value : V) :
    object.insert key value = { object with indices := btreeInsert object.indices i (key, value) } := by
  simp only [insert, hkey, hlookup]

theorem insert_occupied (hkey : arrayIndex key = some i) {item : Units × V}
    (hlookup : object.indices.lookup i = some item) (value : V) :
    object.insert key value = { object with
      indices := object.indices.map fun entry => if entry.1 = i then (i, (item.1, value)) else entry } := by
  simp only [insert, hkey, hlookup]

/-- An insertion into both. -/
theorem Holds.insert (h : Holds object plain) (key : Units) (value : V) :
    Holds (object.insert key value) (put plain key value) := by
  refine ⟨?_, ?_, nodup_put h.nodup key value⟩
  · cases hkey : arrayIndex key with
    | none =>
      rw [insert_ordinary hkey, indexed_put_other hkey]
      exact h.indices
    | some i =>
      cases hlookup : object.indices.lookup i with
      | none =>
        rw [insert_vacant hkey hlookup,
          indexed_put arrayIndex_injective h.nodup (h.notMem_of_lookup hkey hlookup) hkey, btreeInsert, h.indices]
        rw [List.map_append, List.map_cons, List.filter_map, List.filter_map]
        refine congrArg₂ (· ++ ·) rfl (congrArg₂ List.cons ?_ rfl)
        rw [entryOf, hkey, Option.getD_some]
      | some item =>
        obtain ⟨hold, hmem⟩ := h.mem_of_lookup hkey hlookup
        have hput : put plain key value = plain.map fun item => if item.1 = key then (key, value) else item :=
          if_pos (hold ▸ List.mem_map_of_mem hmem)
        rw [insert_occupied hkey hlookup, hput, indexed_map (index_set key value), hold, h.indices, List.map_map,
          List.map_map]
        refine List.map_congr_left fun item' hitem' => ?_
        simp only [Function.comp_apply, entryOf_eq_iff hitem' hkey]
        split
        · simp only [entryOf, hkey, Option.getD_some]
        · rfl
  · cases hkey : arrayIndex key with
    | none => rw [insert_ordinary hkey, others_put_other hkey, h.ordinary]
    | some i =>
      rw [others_put_index hkey, ← h.ordinary]
      cases hlookup : object.indices.lookup i with
      | none => rw [insert_vacant hkey hlookup]
      | some item => rw [insert_occupied hkey hlookup]

/-- A removal from both. -/
theorem Holds.remove (h : Holds object plain) (key : Units) : Holds (object.remove key) (erase plain key) := by
  refine ⟨?_, ?_, nodup_erase h.nodup key⟩
  · rw [indexed_erase arrayIndex_injective h.nodup]
    cases hkey : arrayIndex key with
    | none =>
      have hself : erase (indexed arrayIndex plain) key = indexed arrayIndex plain := by
        refine List.filter_eq_self.mpr fun item hitem => decide_eq_true fun heq => ?_
        have hsome := isSome_of_mem_indexed hitem
        rw [heq, hkey] at hsome
        cases hsome
      simp only [ArgumentObject.remove, hkey, hself, h.indices]
    | some i =>
      simp only [ArgumentObject.remove, hkey]
      rw [erase, h.indices, List.filter_map]
      refine congrArg (List.map entryOf) (List.filter_congr fun item hitem => ?_)
      simp [entryOf_eq_iff hitem hkey]
  · rw [others_erase]
    cases hkey : arrayIndex key with
    | none => simp only [ArgumentObject.remove, hkey, h.ordinary]
    | some i =>
      have hself : erase (others arrayIndex plain) key = others arrayIndex plain := by
        refine List.filter_eq_self.mpr fun item hitem => decide_eq_true fun heq => ?_
        have hnone := isNone_of_mem_others hitem
        rw [heq, hkey] at hnone
        cases hnone
      simp only [ArgumentObject.remove, hkey, hself, h.ordinary]

/-- What `get` finds are the keys of the plain map. -/
theorem Holds.isSome_get (h : Holds object plain) (key : Units) :
    (object.get key).isSome = true ↔ key ∈ plain.map Prod.fst := by
  cases hkey : arrayIndex key with
  | none =>
    simp only [get, hkey]
    rw [h.ordinary, Option.isSome_iff_ne_none, ne_eq, List.lookup_eq_none_iff, ← mem_keys_others hkey, List.mem_map]
    constructor
    · intro hsome
      by_contra hnone
      refine hsome fun item hitem => ?_
      simpa using fun heq => hnone ⟨item, hitem, heq.symm⟩
    · intro ⟨item, hitem, hitemKey⟩ hnone
      simpa [hitemKey] using hnone item hitem
  | some i =>
    simp only [get, hkey, Option.isSome_map]
    cases hlookup : object.indices.lookup i with
    | none => exact iff_of_false Bool.false_ne_true (h.notMem_of_lookup hkey hlookup)
    | some item =>
      obtain ⟨hitemKey, hmem⟩ := h.mem_of_lookup hkey hlookup
      exact iff_of_true rfl (hitemKey ▸ List.mem_map_of_mem hmem)

theorem Holds.step (h : Holds object plain) (operation : Operation V) :
    Holds (object.step operation) (plainStep plain operation) := by
  cases operation with
  | insert key value => exact h.insert key value
  | remove key => exact h.remove key
  | entryOrInsert key value =>
    simp only [ArgumentObject.step, plainStep, entryOrInsert, h.isSome_get]
    split
    · exact h
    · exact h.insert key value

theorem holds_run (operations : List (Operation V)) : Holds (run operations) (plainRun operations) := by
  have hfoldl {object : ArgumentObject V} {plain : List (Units × V)} (h : Holds object plain) :
      Holds (operations.foldl ArgumentObject.step object) (operations.foldl plainStep plain) := by
    induction operations generalizing object plain with
    | nil => exact h
    | cons operation operations ih => exact ih (h.step operation)
  exact hfoldl holds_empty

/-- The same operation of a `JsObject`: a key is the string of its units. -/
def Operation.python : Operation V → JsObject.Operation V
  | .insert key value => .setItem (decode16 key) (.atom value)
  | .remove key => .pop (decode16 key)
  | .entryOrInsert key value => .setdefault (decode16 key) (.atom value)

theorem plainStep_python (h : JsObject.Heap V) (plain : List (Units × V)) (operation : Operation V) :
    JsObject.plainStep h (plain.map (Prod.map decode16 .atom)) operation.python =
      (plainStep plain operation).map (Prod.map decode16 .atom) := by
  cases operation with
  | insert key value => exact put_map decode16_injective _ plain key value
  | remove key => exact erase_map decode16_injective _ plain key
  | entryOrInsert key value =>
    have hmem : decode16 key ∈ (plain.map (Prod.map decode16 (@JsObject.Value.atom V))).map Prod.fst ↔
        key ∈ plain.map Prod.fst := by
      rw [List.map_map, ← List.mem_map_of_injective decode16_injective, List.map_map]
      rfl
    simp only [Operation.python, JsObject.plainStep, plainStep, hmem]
    split
    · rfl
    · exact put_map decode16_injective _ plain key value

theorem run_python (operations : List (Operation V)) (s : JsObject.State V) (plain : List (Units × V)) :
    (JsObject.run s (plain.map (Prod.map decode16 .atom)) (operations.map Operation.python)).2 =
      (operations.foldl plainStep plain).map (Prod.map decode16 .atom) := by
  induction operations generalizing s plain with
  | nil => rfl
  | cons operation operations ih =>
    rw [List.map_cons, JsObject.run, plainStep_python, ih, List.foldl_cons]

theorem undisturbed_python (operations : List (Operation V)) (s : JsObject.State V) :
    JsObject.Undisturbed s (operations.map Operation.python) := by
  induction operations generalizing s with
  | nil => trivial
  | cons operation operations ih =>
    refine ⟨?_, ih _⟩
    cases operation <;> trivial

end ArgumentObject

end Rust

/-! ## Both -/

/-- An undisturbed run of a `JsObject` leaves the items of a plain dict in
ECMAScript order, every run of an `ArgumentObject` does, and the same insertions
and removals give both the same order. -/
theorem jsObject_enumerates (A V : Type) :
    (∀ operations : List (JsObject.Operation A), JsObject.Undisturbed {} operations →
      (JsObject.run {} [] operations).1.items = JsObject.esOrder (JsObject.run {} [] operations).2) ∧
    (∀ operations : List (Rust.ArgumentObject.Operation V),
      (Rust.ArgumentObject.run operations).iter =
        ordered Rust.arrayIndex (Rust.ArgumentObject.plainRun operations)) ∧
    ∀ operations : List (Rust.ArgumentObject.Operation V),
      (JsObject.run {} [] (operations.map Rust.ArgumentObject.Operation.python)).1.items =
        (Rust.ArgumentObject.run operations).iter.map (Prod.map decode16 .atom) := by
  refine ⟨fun operations hundisturbed => ?_, fun operations => ?_, fun operations => ?_⟩
  · exact (JsObject.run_keeps JsObject.keeps_empty hundisturbed).itemsOf_eq
  · exact (Rust.ArgumentObject.holds_run operations).iter_eq
  · have hkeeps := JsObject.run_keeps JsObject.keeps_empty (Rust.ArgumentObject.undisturbed_python operations {})
    have hplain := Rust.ArgumentObject.run_python operations {} []
    refine hkeeps.itemsOf_eq.trans ?_
    rw [(Rust.ArgumentObject.holds_run operations).iter_eq]
    refine (congrArg JsObject.esOrder hplain).trans ?_
    exact ordered_map (fun item => (Rust.arrayIndex_eq item.1).symm) _

/-- A dict whose first value is itself, and whose second key is an index. -/
def cyclicUpdate : List (JsObject.Operation Nat) :=
  [.allocate (.dict [([0x62], .ref 1), ([0x31], .atom 5)]), .update (.mapping 1) []]

/-- The update is re-sequenced under its loop, and loses the index. -/
theorem jsObject_loses_index :
    (JsObject.run {} [] cyclicUpdate).1.items = [([0x62], .ref 1)] ∧
      JsObject.esOrder (JsObject.run {} [] cyclicUpdate).2 = [([0x31], .atom 5), ([0x62], .ref 1)] := by
  have horder (items : List (JsObject.Key × JsObject.Value Nat)) (cell : JsObject.Container Nat)
      (hcell : cell.reordered = .dict [([0x31], .atom 5), ([0x62], .ref 1)]) :
      JsObject.orderInPlace [.jsObject items, cell] (.ref 1) =
        [.jsObject items, .dict [([0x31], .atom 5), ([0x62], .ref 1)]] := by
    rw [JsObject.orderInPlace, JsObject.orderFrom_visit rfl [] List.not_mem_nil, hcell]
    simp [JsObject.Container.children, JsObject.orderFrom]
  have hfirst := fun items => horder items (.dict [([0x62], .ref 1), ([0x31], .atom 5)]) (by decide)
  have hsecond := fun items => horder items (.dict [([0x31], .atom 5), ([0x62], .ref 1)]) (by decide)
  constructor
  · simp only [cyclicUpdate, JsObject.run, JsObject.State.step, JsObject.update, JsObject.beforeItems, JsObject.setItem,
      JsObject.updateLive, JsObject.itemsOf, JsObject.State.items, JsObject.setItems, List.cons_append, List.nil_append,
      List.length_cons, List.length_nil, List.getElem?_cons_zero, List.getElem?_cons_succ, Nat.zero_add,
      List.set_cons_zero, List.foldl_nil, hfirst, hsecond]
    decide
  · decide

/-- A dict that is in order. -/
def orderedUpdate : List (JsObject.Operation Nat) :=
  [.allocate (.dict [([0x31], .atom 5), ([0x62], .ref 1)]), .update (.mapping 1) []]

/-- An update from a dict in order, which holds itself. -/
theorem jsObject_enumerates_update :
    (JsObject.run {} [] orderedUpdate).1.items = [([0x31], .atom 5), ([0x62], .ref 1)] := by
  have hundisturbed : JsObject.Undisturbed {} orderedUpdate := by
    refine ⟨trivial, fun items hitems => .inl ?_, trivial⟩
    obtain rfl : items = [([0x31], .atom 5), ([0x62], .ref 1)] := by
      have hcell : some (JsObject.Container.dict [([0x31], .atom 5), ([0x62], .ref 1)]) = some (.dict items) := hitems
      injection hcell with hcell
      injection hcell with hcell
      exact hcell.symm
    decide
  refine ((jsObject_enumerates Nat Nat).1 orderedUpdate hundisturbed).trans ?_
  decide

end MinionAgent
