import Mathlib.Data.List.Sort

/-!
# MinionAgent.Library.PropertyOrder

Maps as their items in insertion order, and the order in which an object of
them enumerates: the keys that are indices, ascending, then the others as they
were inserted.

* `put`, `erase` — a map in insertion order;
* `ordered` — the order of the object;
* `ordered_put_of_mem`, `ordered_put_other`, `ordered_put_index`,
  `ordered_erase` — what the operations of the map do to it.
-/

namespace PropertyOrder

variable {K V : Type}

/-! ## Maps in insertion order -/

section

variable [DecidableEq K]

/-- Set a key: where it is, or at the end. -/
def put (items : List (K × V)) (k : K) (v : V) : List (K × V) :=
  if k ∈ items.map Prod.fst then items.map fun item => if item.1 = k then (k, v) else item else items ++ [(k, v)]

/-- Remove a key. -/
def erase (items : List (K × V)) (k : K) : List (K × V) := items.filter fun item => item.1 ≠ k

variable {items : List (K × V)} {k : K}

theorem keys_put_of_mem (h : k ∈ items.map Prod.fst) (v : V) : (put items k v).map Prod.fst = items.map Prod.fst := by
  rw [put, if_pos h, List.map_map]
  refine List.map_congr_left fun item _ => ?_
  by_cases hk : item.1 = k <;> simp [hk]

theorem put_of_notMem (h : k ∉ items.map Prod.fst) (v : V) : put items k v = items ++ [(k, v)] :=
  if_neg h

theorem nodup_put (hnodup : (items.map Prod.fst).Nodup) (k : K) (v : V) : ((put items k v).map Prod.fst).Nodup := by
  by_cases h : k ∈ items.map Prod.fst
  · rwa [keys_put_of_mem h]
  · rw [put_of_notMem h, List.map_append]
    exact List.nodup_append'.mpr ⟨hnodup, by simp, by simpa using h⟩

theorem nodup_erase (hnodup : (items.map Prod.fst).Nodup) (k : K) : ((erase items k).map Prod.fst).Nodup :=
  hnodup.sublist (List.filter_sublist.map Prod.fst)

/-- Setting a key to what it is changes nothing. -/
theorem put_of_mem_item (hnodup : (items.map Prod.fst).Nodup) {item : K × V} (h : item ∈ items) :
    put items item.1 item.2 = items := by
  rw [put, if_pos (List.mem_map_of_mem h)]
  have hself : ∀ other ∈ items, (if other.1 = item.1 then (item.1, item.2) else other) = id other := by
    intro other hother
    split
    · next hkey => exact (List.inj_on_of_nodup_map hnodup hother h hkey).symm
    · rfl
  rw [List.map_congr_left hself, List.map_id]

/-- Maps whose keys are renamed. -/
theorem put_map {K' V' : Type} [DecidableEq K'] {f : K → K'} (hf : Function.Injective f) (g : V → V')
    (items : List (K × V)) (k : K) (v : V) :
    put (items.map (Prod.map f g)) (f k) (g v) = (put items k v).map (Prod.map f g) := by
  have hmem : f k ∈ (items.map (Prod.map f g)).map Prod.fst ↔ k ∈ items.map Prod.fst := by
    rw [List.map_map, ← List.mem_map_of_injective hf, List.map_map]
    rfl
  unfold put
  simp only [hmem]
  split
  · rw [List.map_map, List.map_map]
    refine List.map_congr_left fun item _ => ?_
    simp only [Function.comp_apply, Prod.map_fst, hf.eq_iff]
    split
    · rfl
    · rfl
  · rw [List.map_append]
    rfl

theorem erase_map {K' V' : Type} [DecidableEq K'] {f : K → K'} (hf : Function.Injective f) (g : V → V')
    (items : List (K × V)) (k : K) :
    erase (items.map (Prod.map f g)) (f k) = (erase items k).map (Prod.map f g) := by
  rw [erase, erase, List.filter_map]
  refine congrArg (List.map (Prod.map f g)) (List.filter_congr fun item _ => ?_)
  simp only [Function.comp_apply, Prod.map_fst, hf.ne_iff]

/-- Removing keys in turn. -/
theorem foldl_erase (keys : List K) (items : List (K × V)) :
    keys.foldl erase items = items.filter fun item => item.1 ∉ keys := by
  induction keys generalizing items with
  | nil => simp
  | cons k keys ih =>
    rw [List.foldl_cons, ih, erase, List.filter_filter]
    refine List.filter_congr fun item _ => ?_
    simp [Bool.and_comm]

/-- Setting new keys in turn. -/
theorem foldl_put_new {pairs : List (K × V)} (hpairs : (pairs.map Prod.fst).Nodup) {items : List (K × V)}
    (hnew : ∀ item ∈ pairs, item.1 ∉ items.map Prod.fst) :
    pairs.foldl (fun items item => put items item.1 item.2) items = items ++ pairs := by
  induction pairs generalizing items with
  | nil => simp
  | cons item pairs ih =>
    obtain ⟨hitem, hpairs⟩ := List.nodup_cons.mp hpairs
    obtain ⟨hfirst, hnew⟩ := List.forall_mem_cons.mp hnew
    rw [List.foldl_cons, put_of_notMem hfirst, ih hpairs, List.append_assoc, List.singleton_append]
    intro other hother hmem
    rw [List.map_append, List.mem_append] at hmem
    cases hmem with
    | inl hmem => exact hnew other hother hmem
    | inr hmem =>
      rw [List.map_singleton, List.mem_singleton] at hmem
      exact hitem (hmem ▸ List.mem_map_of_mem hother)

/-- Remove the keys of a kind, set a key, and set those again. -/
def putBefore (later? : K → Bool) (items : List (K × V)) (k : K) (v : V) : List (K × V) :=
  let later := (items.map Prod.fst).filter later?
  let moved := items.filter fun item => item.1 ∈ later
  moved.foldl (fun items item => put items item.1 item.2) (put (later.foldl erase items) k v)

/-- The keys of the kind are behind a new one. -/
theorem putBefore_eq {items : List (K × V)} (hnodup : (items.map Prod.fst).Nodup) {k : K}
    (h : k ∉ items.map Prod.fst) (v : V) (p : K → Bool) :
    putBefore p items k v = (items.filter fun item => !p item.1) ++ (k, v) :: items.filter fun item => p item.1 := by
  have hmoved : (items.filter fun item => item.1 ∈ (items.map Prod.fst).filter p) =
      items.filter fun item => p item.1 := by
    refine List.filter_congr fun item hitem => ?_
    simp [List.mem_map_of_mem hitem]
  have hkept : ((items.map Prod.fst).filter p).foldl erase items = items.filter fun item => !p item.1 := by
    rw [foldl_erase]
    refine List.filter_congr fun item hitem => ?_
    simp [List.mem_map_of_mem hitem]
  have hsub (q : K × V → Bool) {k : K} (hk : k ∈ (items.filter q).map Prod.fst) : k ∈ items.map Prod.fst :=
    (List.filter_sublist.map Prod.fst).mem hk
  simp only [putBefore, hmoved, hkept]
  rw [put_of_notMem fun hk => h (hsub _ hk), foldl_put_new, List.append_assoc, List.singleton_append]
  · exact hnodup.sublist (List.filter_sublist.map Prod.fst)
  · intro item hitem hmem
    rw [List.map_append, List.mem_append] at hmem
    obtain ⟨hitem, hp⟩ := List.mem_filter.mp hitem
    cases hmem with
    | inl hmem =>
      obtain ⟨other, hother, hkey⟩ := List.mem_map.mp hmem
      have hnot := (List.mem_filter.mp hother).2
      rw [hkey, hp] at hnot
      cases hnot
    | inr hmem =>
      rw [List.map_singleton, List.mem_singleton] at hmem
      exact h (List.mem_map.mpr ⟨item, hitem, hmem⟩)

end

/-! ## The order of an object -/

variable (index : K → Option Nat)

/-- The order of two keys that are indices. -/
def Precedes (x y : K × V) : Prop := (index x.1).getD 0 ≤ (index y.1).getD 0

instance : DecidableRel (Precedes (V := V) index) :=
  fun x y => inferInstanceAs (Decidable ((index x.1).getD 0 ≤ (index y.1).getD 0))

instance : Std.Total (Precedes (V := V) index) := ⟨fun _ _ => Nat.le_total _ _⟩

instance : IsTrans (K × V) (Precedes index) := ⟨fun _ _ _ => Nat.le_trans⟩

/-- The items whose keys are indices, ascending. -/
def indexed (items : List (K × V)) : List (K × V) :=
  (items.filter fun item => (index item.1).isSome).insertionSort (Precedes index)

/-- The other items. -/
def others (items : List (K × V)) : List (K × V) := items.filter fun item => (index item.1).isNone

def ordered (items : List (K × V)) : List (K × V) := indexed index items ++ others index items

variable {index}

variable {items : List (K × V)} {k : K}

theorem isSome_of_mem_indexed {item : K × V} (h : item ∈ indexed index items) : (index item.1).isSome = true :=
  (List.mem_filter.mp ((List.mem_insertionSort _).mp h)).2

theorem isNone_of_mem_others {item : K × V} (h : item ∈ others index items) : (index item.1).isNone = true :=
  (List.mem_filter.mp h).2

theorem indexed_perm (items : List (K × V)) :
    (indexed index items).Perm (items.filter fun item => (index item.1).isSome) :=
  List.perm_insertionSort _ _

theorem pairwise_indexed (items : List (K × V)) : (indexed index items).Pairwise (Precedes index) :=
  List.pairwise_insertionSort _ _

theorem others_eq (items : List (K × V)) :
    others index items = items.filter fun item => !(index item.1).isSome := by
  refine List.filter_congr fun item _ => ?_
  rw [Option.not_isSome]

theorem ordered_perm (items : List (K × V)) : (ordered index items).Perm items := by
  rw [ordered, others_eq]
  exact ((indexed_perm items).append_right _).trans (List.filter_append_perm _ items)

theorem indexed_map {K' V' : Type} {index' : K' → Option Nat} {f : K × V → K' × V'}
    (hf : ∀ item, index' (f item).1 = index item.1) (items : List (K × V)) :
    indexed index' (items.map f) = (indexed index items).map f := by
  have hsort (xs : List (K × V)) :
      (xs.insertionSort (Precedes index)).map f = (xs.map f).insertionSort (Precedes index') := by
    refine List.map_insertionSort _ _ f xs fun x _ y _ => ?_
    simp only [Precedes, hf]
  simp only [indexed, List.filter_map, hsort, Function.comp_def, hf]

theorem others_map {K' V' : Type} {index' : K' → Option Nat} {f : K × V → K' × V'}
    (hf : ∀ item, index' (f item).1 = index item.1) (items : List (K × V)) :
    others index' (items.map f) = (others index items).map f := by
  simp only [others, List.filter_map, Function.comp_def, hf]

/-- The order depends on the indices of the keys only. -/
theorem ordered_map {K' V' : Type} {index' : K' → Option Nat} {f : K × V → K' × V'}
    (hf : ∀ item, index' (f item).1 = index item.1) (items : List (K × V)) :
    ordered index' (items.map f) = (ordered index items).map f := by
  rw [ordered, indexed_map hf, others_map hf, ← List.map_append, ← ordered]

/-- What is in order is so already. -/
theorem ordered_append {first second : List (K × V)} (hfirst : ∀ item ∈ first, (index item.1).isSome = true)
    (hsorted : first.Pairwise (Precedes index)) (hsecond : ∀ item ∈ second, (index item.1).isNone = true) :
    ordered index (first ++ second) = first ++ second := by
  have hsome : (first ++ second).filter (fun item => (index item.1).isSome) = first := by
    rw [List.filter_append, List.filter_eq_self.mpr hfirst, List.filter_eq_nil_iff.mpr, List.append_nil]
    intro item hitem
    simpa using hsecond item hitem
  have hnone : others index (first ++ second) = second := by
    rw [others, List.filter_append, List.filter_eq_self.mpr hsecond, List.filter_eq_nil_iff.mpr, List.nil_append]
    intro item hitem
    rw [Option.isNone_eq_false_iff.mpr (hfirst item hitem)]
    exact Bool.false_ne_true
  rw [ordered, hnone, indexed, hsome, hsorted.insertionSort_eq]

theorem ordered_idem (items : List (K × V)) : ordered index (ordered index items) = ordered index items :=
  ordered_append (fun _ => isSome_of_mem_indexed) (pairwise_indexed items) fun _ => isNone_of_mem_others

/-! ## What the operations do to the order -/

theorem keys_ordered_perm (items : List (K × V)) :
    ((ordered index items).map Prod.fst).Perm (items.map Prod.fst) :=
  (ordered_perm items).map Prod.fst

theorem nodup_ordered (hnodup : (items.map Prod.fst).Nodup) : ((ordered index items).map Prod.fst).Nodup :=
  (keys_ordered_perm items).nodup_iff.mpr hnodup

theorem mem_keys_ordered : k ∈ (ordered index items).map Prod.fst ↔ k ∈ items.map Prod.fst :=
  (keys_ordered_perm items).mem_iff

/-- Different keys have different indices. -/
def Injective (index : K → Option Nat) : Prop := ∀ k k' i, index k = some i → index k' = some i → k = k'

/-- Sorted items with the same keys are the indexed ones. -/
theorem indexed_eq (hinj : Injective index) {items sorted : List (K × V)} (hnodup : (items.map Prod.fst).Nodup)
    (hperm : sorted.Perm (items.filter fun item => (index item.1).isSome))
    (hsorted : sorted.Pairwise (Precedes index)) : indexed index items = sorted := by
  refine ((indexed_perm items).trans hperm.symm).eq_of_pairwise ?_ (pairwise_indexed items) hsorted
  intro x y hx hy hxy hyx
  obtain ⟨hx, hxsome⟩ := List.mem_filter.mp ((indexed_perm items).mem_iff.mp hx)
  obtain ⟨hy, hysome⟩ := List.mem_filter.mp (hperm.mem_iff.mp hy)
  obtain ⟨i, hi⟩ := Option.isSome_iff_exists.mp hxsome
  obtain ⟨j, hj⟩ := Option.isSome_iff_exists.mp hysome
  rw [Precedes, hi, hj] at hxy hyx
  obtain rfl : i = j := Nat.le_antisymm hxy hyx
  exact List.inj_on_of_nodup_map hnodup hx hy (hinj _ _ i hi hj)

/-- No key of an object has the index of a new one. -/
theorem exists_index_of_new (hinj : Injective index) (h : k ∉ items.map Prod.fst) {i : Nat}
    (hk : index k = some i) {item : K × V} (hitem : item ∈ indexed index items) :
    ∃ j, index item.1 = some j ∧ j ≠ i := by
  obtain ⟨j, hj⟩ := Option.isSome_iff_exists.mp (isSome_of_mem_indexed hitem)
  refine ⟨j, hj, fun heq => ?_⟩
  have hmem := (List.mem_filter.mp ((indexed_perm items).mem_iff.mp hitem)).1
  exact h (hinj _ _ i (heq ▸ hj) hk ▸ List.mem_map_of_mem hmem)

variable [DecidableEq K]

/-- Setting a key keeps the index of each item. -/
theorem index_set (k : K) (v : V) (item : K × V) : index (if item.1 = k then (k, v) else item).1 = index item.1 := by
  split
  · next heq => rw [heq]
  · rfl

/-- Items without the key stay as they are. -/
theorem map_set_of_ne (h : ∀ item ∈ items, item.1 ≠ k) (v : V) :
    (items.map fun item => if item.1 = k then (k, v) else item) = items := by
  have hself : ∀ item ∈ items, (if item.1 = k then (k, v) else item) = id item := by
    intro item hitem
    rw [if_neg (h item hitem), id]
  rw [List.map_congr_left hself, List.map_id]

/-- An index is set among the indexed items. -/
theorem others_put_index {i : Nat} (hk : index k = some i) (items : List (K × V)) (v : V) :
    others index (put items k v) = others index items := by
  by_cases h : k ∈ items.map Prod.fst
  · rw [put, if_pos h, others_map (index_set k v)]
    refine map_set_of_ne (fun item hitem heq => ?_) v
    have hnone := isNone_of_mem_others hitem
    rw [heq, hk] at hnone
    cases hnone
  · simp [put_of_notMem h, others, List.filter_append, hk]

/-- Another key is set among the others. -/
theorem indexed_put_other (hk : index k = none) (items : List (K × V)) (v : V) :
    indexed index (put items k v) = indexed index items := by
  by_cases h : k ∈ items.map Prod.fst
  · rw [put, if_pos h, indexed_map (index_set k v)]
    refine map_set_of_ne (fun item hitem heq => ?_) v
    have hsome := isSome_of_mem_indexed hitem
    rw [heq, hk] at hsome
    cases hsome
  · simp [put_of_notMem h, indexed, List.filter_append, hk]

omit [DecidableEq K] in
/-- A key that is no index is among the others. -/
theorem mem_keys_others (hk : index k = none) : k ∈ (others index items).map Prod.fst ↔ k ∈ items.map Prod.fst := by
  constructor
  · exact fun h => (List.filter_sublist.map Prod.fst).mem h
  · intro h
    obtain ⟨item, hitem, rfl⟩ := List.mem_map.mp h
    exact List.mem_map_of_mem (List.mem_filter.mpr ⟨hitem, by rw [hk]; rfl⟩)

theorem others_put_other (hk : index k = none) (items : List (K × V)) (v : V) :
    others index (put items k v) = put (others index items) k v := by
  have hmem : k ∈ (others index items).map Prod.fst ↔ k ∈ items.map Prod.fst := mem_keys_others hk
  by_cases h : k ∈ items.map Prod.fst
  · rw [put, if_pos h, put, if_pos (hmem.mpr h), others_map (index_set k v)]
  · rw [put_of_notMem h, put_of_notMem fun hk => h (hmem.mp hk)]
    simp [others, List.filter_append, hk]

/-- A key that is there keeps its place. -/
theorem ordered_put_of_mem (h : k ∈ items.map Prod.fst) (v : V) :
    ordered index (put items k v) = put (ordered index items) k v := by
  rw [put, if_pos h, put, if_pos (mem_keys_ordered.mpr h)]
  exact ordered_map (index_set k v) items

/-- A new key that is no index is the last. -/
theorem ordered_put_other (h : k ∉ items.map Prod.fst) (hk : index k = none) (v : V) :
    ordered index (put items k v) = ordered index items ++ [(k, v)] := by
  rw [put_of_notMem h]
  simp [ordered, indexed, others, List.filter_append, hk]

/-- A new index goes between those before and those behind it. -/
theorem indexed_put (hinj : Injective index) (hnodup : (items.map Prod.fst).Nodup) (h : k ∉ items.map Prod.fst)
    {i : Nat} (hk : index k = some i) (v : V) :
    indexed index (put items k v) =
      (indexed index items).filter (fun item => (index item.1).getD 0 < i) ++
        (k, v) :: (indexed index items).filter fun item => i < (index item.1).getD 0 := by
  have hbehind : (indexed index items).filter (fun item => i < (index item.1).getD 0) =
      (indexed index items).filter fun item => !decide ((index item.1).getD 0 < i) := by
    refine List.filter_congr fun item hitem => ?_
    obtain ⟨j, hj, hne⟩ := exists_index_of_new hinj h hk hitem
    rw [hj]
    grind
  refine indexed_eq hinj (nodup_put hnodup k v) ?_ ?_
  · rw [put_of_notMem h, List.filter_append, hbehind]
    refine List.perm_middle.trans ?_
    refine ((List.filter_append_perm _ _).trans (indexed_perm items)).cons (k, v) |>.trans ?_
    simpa [hk] using (List.perm_append_singleton (k, v) _).symm
  · refine List.pairwise_append.mpr ⟨(pairwise_indexed items).filter _, ?_, ?_⟩
    · refine List.pairwise_cons.mpr ⟨fun item hitem => ?_, (pairwise_indexed items).filter _⟩
      have hlt := of_decide_eq_true (List.mem_filter.mp hitem).2
      rw [Precedes, hk]
      exact Nat.le_of_lt hlt
    · intro x hx y hy
      have hlt := of_decide_eq_true (List.mem_filter.mp hx).2
      cases List.mem_cons.mp hy with
      | inl heq =>
        rw [heq, Precedes, hk]
        exact Nat.le_of_lt hlt
      | inr hy =>
        have hlt' := of_decide_eq_true (List.mem_filter.mp hy).2
        exact Nat.le_of_lt (Nat.lt_trans hlt hlt')

/-- A new index moves what is behind it. -/
theorem ordered_put_index (hinj : Injective index) (hnodup : (items.map Prod.fst).Nodup)
    (h : k ∉ items.map Prod.fst) {i : Nat} (hk : index k = some i) (v : V) :
    ordered index (put items k v) =
      (ordered index items).filter (fun item => (index item.1).any (· < i)) ++
        (k, v) :: (ordered index items).filter fun item => !(index item.1).any (· < i) := by
  have hbefore : (ordered index items).filter (fun item => (index item.1).any (· < i)) =
      (indexed index items).filter fun item => (index item.1).getD 0 < i := by
    rw [ordered, List.filter_append, @List.filter_eq_nil_iff _ _ (others index items) |>.mpr, List.append_nil]
    · refine List.filter_congr fun item hitem => ?_
      obtain ⟨j, hj, _⟩ := exists_index_of_new hinj h hk hitem
      rw [hj]
      rfl
    · intro item hitem
      rw [Option.isNone_iff_eq_none.mp (isNone_of_mem_others hitem)]
      exact Bool.false_ne_true
  have hbehind : (ordered index items).filter (fun item => !(index item.1).any (· < i)) =
      (indexed index items).filter (fun item => i < (index item.1).getD 0) ++ others index items := by
    rw [ordered, List.filter_append, @List.filter_eq_self _ _ (others index items) |>.mpr]
    · congr 1
      refine List.filter_congr fun item hitem => ?_
      obtain ⟨j, hj, hne⟩ := exists_index_of_new hinj h hk hitem
      rw [hj]
      simp only [Option.any_some, Option.getD_some]
      grind
    · intro item hitem
      rw [Option.isNone_iff_eq_none.mp (isNone_of_mem_others hitem)]
      rfl
  rw [ordered, indexed_put hinj hnodup h hk, others_put_index hk, hbefore, hbehind, List.append_assoc, List.cons_append]

theorem indexed_erase (hinj : Injective index) (hnodup : (items.map Prod.fst).Nodup) (k : K) :
    indexed index (erase items k) = erase (indexed index items) k := by
  refine indexed_eq hinj (nodup_erase hnodup k) ?_ ((pairwise_indexed items).filter _)
  rw [erase, erase, List.filter_comm]
  exact (indexed_perm items).filter _

theorem others_erase (items : List (K × V)) (k : K) : others index (erase items k) = erase (others index items) k :=
  List.filter_comm ..

/-- A key that is removed leaves the others in order. -/
theorem ordered_erase (hinj : Injective index) (hnodup : (items.map Prod.fst).Nodup) (k : K) :
    ordered index (erase items k) = erase (ordered index items) k := by
  rw [ordered, indexed_erase hinj hnodup, others_erase, ordered, erase, erase, erase, List.filter_append]

end PropertyOrder
