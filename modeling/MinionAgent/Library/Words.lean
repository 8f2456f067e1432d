import Mathlib.Data.Nat.Bitwise

/-!
# MinionAgent.Library.Words

Words of several bytes in a list of bytes.

* `ofLeBytes`, `ofBeBytes` — the number of a word, by the order of its bytes;
* `signed32` — a word of 32 bits as a two's complement number;
* `slice?` — a part of a list, which must lie inside it;
* `shiftLeft_lor_eq_add` — shifted bytes may be joined by `|` or by `+`.
-/

namespace Words

/-- The number of a word whose lowest byte comes first. -/
def ofLeBytes : List UInt8 → Nat
  | [] => 0
  | b :: bytes => b.toNat + 256 * ofLeBytes bytes

/-- The number of a word whose highest byte comes first. -/
def ofBeBytes (bytes : List UInt8) : Nat := ofLeBytes bytes.reverse

/-- A word of 32 bits as a two's complement number. -/
def signed32 (n : Nat) : Int := if n < 0x80000000 then n else n - 0x100000000

/-- `xs[lo..hi]`, nothing where that is not inside the list. -/
def slice? {α : Type} (xs : List α) (lo hi : Nat) : Option (List α) :=
  if lo ≤ hi ∧ hi ≤ xs.length then some ((xs.take hi).drop lo) else none

theorem slice?_eq_some {α : Type} {xs : List α} {lo hi : Nat} (hlo : lo ≤ hi) (hhi : hi ≤ xs.length) :
    slice? xs lo hi = some ((xs.take hi).drop lo) := if_pos ⟨hlo, hhi⟩

theorem slice?_eq_none {α : Type} {xs : List α} {lo hi : Nat} (h : xs.length < hi) : slice? xs lo hi = none :=
  if_neg fun hinside => absurd hinside.2 (by omega)

theorem take_drop_two {α : Type} {xs : List α} {lo : Nat} (h : lo + 2 ≤ xs.length) :
    (xs.take (lo + 2)).drop lo = [xs[lo], xs[lo + 1]] := by
  rw [List.drop_take, Nat.add_sub_cancel_left, List.drop_eq_getElem_cons (by omega), List.take_succ_cons,
    List.drop_eq_getElem_cons (by omega), List.take_succ_cons, List.take_zero]

theorem take_drop_four {α : Type} {xs : List α} {lo : Nat} (h : lo + 4 ≤ xs.length) :
    (xs.take (lo + 4)).drop lo = [xs[lo], xs[lo + 1], xs[lo + 2], xs[lo + 3]] := by
  rw [List.drop_take, Nat.add_sub_cancel_left, List.drop_eq_getElem_cons (by omega), List.take_succ_cons,
    List.drop_eq_getElem_cons (by omega), List.take_succ_cons, List.drop_eq_getElem_cons (by omega),
    List.take_succ_cons, List.drop_eq_getElem_cons (by omega), List.take_succ_cons, List.take_zero]

/-- Reading a part of a list element by element. -/
theorem map_range_getElem? {α β : Type} {xs : List α} {lo k : Nat} (h : lo + k ≤ xs.length) (f : Option α → β) :
    (List.range k).map (fun i => f xs[lo + i]?) = ((xs.take (lo + k)).drop lo).map (f ∘ some) := by
  apply List.ext_getElem
  · simp only [List.length_map, List.length_range, List.length_drop, List.length_take]
    omega
  · intro i hi hi'
    have hlt : lo + i < xs.length := by
      simp only [List.length_map, List.length_range] at hi
      omega
    simp [List.getElem?_eq_getElem hlt]

theorem ofLeBytes_four (a b c d : UInt8) :
    ofLeBytes [a, b, c, d] = a.toNat + 256 * (b.toNat + 256 * (c.toNat + 256 * d.toNat)) := rfl

theorem ofLeBytes_lt {bytes : List UInt8} {n : Nat} (h : bytes.length ≤ n) : ofLeBytes bytes < 256 ^ n := by
  induction bytes generalizing n with
  | nil => exact Nat.pow_pos (by decide)
  | cons b bytes ih =>
    obtain ⟨n, rfl⟩ := Nat.exists_eq_succ_of_ne_zero (n := n) (by rintro rfl; simp at h)
    have hrest := ih (n := n) (by simpa using h)
    have hb := b.toNat_lt
    rw [ofLeBytes, Nat.pow_succ]
    omega

/-! ## Joining bytes -/

/-- A shifted number leaves room for a smaller one. -/
theorem shiftLeft_lor_eq_add {a i : Nat} (h : a < 2 ^ i) (b : Nat) : b <<< i ||| a = b <<< i + a :=
  (Nat.shiftLeft_add_eq_or_of_lt h b).symm

theorem lor_shiftLeft_eq_add {a i : Nat} (h : a < 2 ^ i) (b : Nat) : a ||| b <<< i = a + b <<< i := by
  rw [Nat.lor_comm, shiftLeft_lor_eq_add h, Nat.add_comm]

theorem lor16 {a b : Nat} (ha : a < 256) : a ||| b <<< 8 = a + 256 * b := by
  rw [lor_shiftLeft_eq_add (i := 8) (by omega), Nat.shiftLeft_eq]
  omega

theorem lor32 {a b c d : Nat} (ha : a < 256) (hb : b < 256) (hc : c < 256) :
    a ||| b <<< 8 ||| c <<< 16 ||| d <<< 24 = a + 256 * (b + 256 * (c + 256 * d)) := by
  rw [lor16 ha, lor_shiftLeft_eq_add (i := 16) (by omega), lor_shiftLeft_eq_add (i := 24), Nat.shiftLeft_eq,
    Nat.shiftLeft_eq]
  · omega
  · rw [Nat.shiftLeft_eq]
    omega

/-- The bytes of a word joined from the highest one on. -/
theorem lor32_rev {a b c d : Nat} (ha : a < 256) (hb : b < 256) (hc : c < 256) :
    d <<< 24 ||| c <<< 16 ||| b <<< 8 ||| a = a + 256 * (b + 256 * (c + 256 * d)) := by
  rw [← lor32 ha hb hc, Nat.lor_comm, Nat.lor_comm (d <<< 24), Nat.lor_assoc _ (c <<< 16), Nat.lor_comm _ (b <<< 8),
    Nat.lor_assoc]

theorem lor16_rev {a b : Nat} (ha : a < 256) : b <<< 8 ||| a = a + 256 * b := by
  rw [Nat.lor_comm, lor16 ha]

end Words
