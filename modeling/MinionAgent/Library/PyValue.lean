import Mathlib.Data.List.Sort
import Mathlib.Data.List.Nodup

/-!
# MinionAgent.Library.PyValue

The Python values a program keeps in plain data: scalars, lists, tuples and
dicts.  A dict is the list of its items in insertion order, so key order is
observable, as it is in Python.

* `PyFloat` — a finite float, identified by its `repr`;
* `Value` — the values, with decidable equality;
* `Value.get?` — `dict.get` on a string key;
* `Value.IsJson` — the values `json.loads` can return.

A value that is none of these (an object of some class) is kept as the name
of its type, which is all that plain-data code can read of it.
-/

namespace Py

/-! ## Scalars -/

/-- The digits a text starts with. -/
def digits (cs : List Char) : List Char := cs.takeWhile Char.isDigit

/-- The integer part a number starts with: one zero, or digits without a
leading zero. -/
def intPart : List Char → List Char
  | '0' :: _ => ['0']
  | cs => digits cs

/-- A fraction: a point and at least one digit. -/
def fracPart : List Char → List Char
  | '.' :: cs => if digits cs = [] then [] else '.' :: digits cs
  | _ => []

/-- An exponent, with or without a sign. -/
def expPart : List Char → List Char
  | e :: sign :: cs =>
    if e = 'e' || e = 'E' then
      if sign = '+' || sign = '-' then
        if digits cs = [] then [] else e :: sign :: digits cs
      else
        if digits (sign :: cs) = [] then [] else e :: digits (sign :: cs)
    else []
  | _ => []

/-- The number token at the front of a text, and whether it is a `float`'s:
`-?(0|[1-9]\d*)(\.\d+)?([eE][-+]?\d+)?`. -/
def numberToken (cs : List Char) : Option (List Char × Bool) :=
  let sign := if cs.head? = some '-' then ['-'] else []
  let int := intPart (cs.drop sign.length)
  if int = [] then
    none
  else
    let frac := fracPart (cs.drop (sign ++ int).length)
    let exp := expPart (cs.drop (sign ++ int ++ frac).length)
    some (sign ++ int ++ frac ++ exp, !frac.isEmpty || !exp.isEmpty)

/-- The texts `float.__repr__` gives to finite floats: a number token with a
fraction or an exponent, which is what tells them from an `int`. -/
def isFloatRepr (text : String) : Bool := numberToken text.toList == some (text.toList, true)

/-- A finite float.  `repr` round-trips through `float`, so the text
identifies the number. -/
structure PyFloat where
  repr : String
  isRepr : isFloatRepr repr = true
deriving DecidableEq

/-- The float `0.0`. -/
def PyFloat.zero : PyFloat := ⟨"0.0", by decide⟩

/-- Values without parts. -/
inductive Scalar
  | none
  | bool (b : Bool)
  | int (i : Int)
  | float (f : PyFloat)
  | str (s : String)
deriving DecidableEq

/-! ## Slices -/

/-- `xs[start:]`; a negative start counts from the end. -/
def sliceFrom {α : Type} (xs : List α) (start : Int) : List α :=
  xs.drop (if start < 0 then start + xs.length else start).toNat

/-! ## Values -/

/-- A Python value built from scalars, lists, tuples and dicts.

`mixedDict items key` is a dict with a key that is not a string: `items` are
the items before the first such key and `key` is that key's `repr`. -/
inductive Value
  | scalar (s : Scalar)
  | list (xs : List Value)
  | tuple (xs : List Value)
  | dict (items : List (String × Value))
  | mixedDict (items : List (String × Value)) (key : String)
  | other (typeName : String)

instance : Inhabited Value := ⟨.scalar .none⟩

namespace Value

/-- `None`. -/
@[match_pattern] abbrev none : Value := .scalar .none
/-- A `bool`. -/
@[match_pattern] abbrev bool (b : Bool) : Value := .scalar (.bool b)
/-- An `int`. -/
@[match_pattern] abbrev int (i : Int) : Value := .scalar (.int i)
/-- A `float`. -/
@[match_pattern] abbrev float (f : PyFloat) : Value := .scalar (.float f)
/-- A `str`. -/
@[match_pattern] abbrev str (s : String) : Value := .scalar (.str s)

mutual

/-- Equality of values is decided by their structure. -/
def decEq : (a b : Value) → Decidable (a = b)
  | scalar a, scalar b => decidable_of_iff (a = b) (by simp)
  | list a, list b => @decidable_of_iff _ (a = b) (by simp) (decEqList a b)
  | tuple a, tuple b => @decidable_of_iff _ (a = b) (by simp) (decEqList a b)
  | dict a, dict b => @decidable_of_iff _ (a = b) (by simp) (decEqItems a b)
  | mixedDict a k, mixedDict b l =>
    @decidable_of_iff _ (a = b ∧ k = l) (by simp) (@instDecidableAnd _ _ (decEqItems a b) inferInstance)
  | other a, other b => decidable_of_iff (a = b) (by simp)
  | scalar _, list _ | scalar _, tuple _ | scalar _, dict _ | scalar _, mixedDict _ _ | scalar _, other _
  | list _, scalar _ | list _, tuple _ | list _, dict _ | list _, mixedDict _ _ | list _, other _
  | tuple _, scalar _ | tuple _, list _ | tuple _, dict _ | tuple _, mixedDict _ _ | tuple _, other _
  | dict _, scalar _ | dict _, list _ | dict _, tuple _ | dict _, mixedDict _ _ | dict _, other _
  | mixedDict _ _, scalar _ | mixedDict _ _, list _ | mixedDict _ _, tuple _ | mixedDict _ _, dict _
  | mixedDict _ _, other _
  | other _, scalar _ | other _, list _ | other _, tuple _ | other _, dict _ | other _, mixedDict _ _ =>
    isFalse (by simp)

/-- The same over the elements of a list or tuple. -/
def decEqList : (a b : List Value) → Decidable (a = b)
  | [], [] => isTrue rfl
  | x :: xs, y :: ys =>
    @decidable_of_iff _ (x = y ∧ xs = ys) (by simp) (@instDecidableAnd _ _ (decEq x y) (decEqList xs ys))
  | [], _ :: _ | _ :: _, [] => isFalse (by simp)

/-- The same over the items of a dict. -/
def decEqItems : (a b : List (String × Value)) → Decidable (a = b)
  | [], [] => isTrue rfl
  | (k, x) :: xs, (l, y) :: ys =>
    @decidable_of_iff _ (k = l ∧ x = y ∧ xs = ys) (by simp [and_assoc])
      (@instDecidableAnd _ _ inferInstance (@instDecidableAnd _ _ (decEq x y) (decEqItems xs ys)))
  | [], _ :: _ | _ :: _, [] => isFalse (by simp)

end

instance : DecidableEq Value := decEq

/-- `value.get(key)` of a dict; a value that is not a dict has no items. -/
def get? : Value → String → Option Value
  | dict items, key => items.lookup key
  | _, _ => Option.none

@[simp] theorem get?_dict (items : List (String × Value)) (key : String) :
    (dict items).get? key = items.lookup key := rfl

/-! ## Reading values -/

/-- The text of a `str`. -/
def str? : Value → Option String
  | str s => some s
  | _ => Option.none

/-- The number of an `int`. -/
def int? : Value → Option Int
  | int i => some i
  | _ => Option.none

/-- The number of a `float`. -/
def float? : Value → Option PyFloat
  | float f => some f
  | _ => Option.none

/-- The truth value of a `bool`. -/
def bool? : Value → Option Bool
  | bool b => some b
  | _ => Option.none

/-- The elements of a list or tuple. -/
def elems? : Value → Option (List Value)
  | list xs | tuple xs => some xs
  | _ => Option.none

/-- The items of a dict. -/
def items? : Value → Option (List (String × Value))
  | dict items => some items
  | _ => Option.none

@[simp] theorem str?_str (s : String) : (str s).str? = some s := rfl
@[simp] theorem int?_int (i : Int) : (int i).int? = some i := rfl
@[simp] theorem float?_float (f : PyFloat) : (float f).float? = some f := rfl
@[simp] theorem bool?_bool (b : Bool) : (bool b).bool? = some b := rfl
@[simp] theorem elems?_list (xs : List Value) : (list xs).elems? = some xs := rfl
@[simp] theorem items?_dict (items : List (String × Value)) : (dict items).items? = some items := rfl

/-- `None` or a value: the reading of an entry that may be absent. -/
def optional {α : Type} (read : Value → Option α) : Option Value → Option (Option α)
  | Option.none => some Option.none
  | some none => some Option.none
  | some v => (read v).map some

@[simp] theorem optional_absent {α : Type} (read : Value → Option α) :
    optional read Option.none = some Option.none := rfl
@[simp] theorem optional_none {α : Type} (read : Value → Option α) : optional read (some none) = some Option.none := rfl

@[simp] theorem optional_dict {α : Type} (read : Value → Option α) (items : List (String × Value)) :
    optional read (some (dict items)) = (read (dict items)).map some := rfl

/-- An entry that is left out when there is no value. -/
def entry (key : String) : Option Value → List (String × Value)
  | some v => [(key, v)]
  | Option.none => []

@[simp] theorem lookup_entry (key : String) (v : Option Value) (key' : String) :
    (entry key v).lookup key' = if key' = key then v else Option.none := by
  cases v with
  | none => simp [entry]
  | some v =>
    by_cases h : key' = key
    · simp [entry, h]
    · have hbeq : (key' == key) = false := by simpa using h
      simp [entry, List.lookup_cons, hbeq, h]

/-! ## JSON values -/

mutual

/-- The values `json.loads` returns: no tuple, no foreign object, string keys
only and each key once. -/
def IsJson : Value → Prop
  | scalar _ => True
  | list xs => IsJsonList xs
  | dict items => (items.map Prod.fst).Nodup ∧ IsJsonItems items
  | tuple _ | mixedDict _ _ | other _ => False

/-- The same for every element. -/
def IsJsonList : List Value → Prop
  | [] => True
  | x :: xs => IsJson x ∧ IsJsonList xs

/-- The same for every item's value. -/
def IsJsonItems : List (String × Value) → Prop
  | [] => True
  | (_, x) :: xs => IsJson x ∧ IsJsonItems xs

end

end Value

end Py
