import Mathlib.Data.List.AList
import Mathlib.Data.List.Lex
import Mathlib.Order.Lattice

/-!
# MinionAgent.Library.FiniteMap

Finite maps with a last-wins update, and names in the order of a key.

* `lookup_update` — an update with distinct keys;
* `items_update_perm` — and the pairs that it leaves;
* `lookup_pick` — the part of a map on a list of its keys;
* `find?_sortBy` — the first name of a class in the order of a key.
-/

/-- A map, as its pairs. -/
abbrev FiniteMap (K V : Type) : Type := AList fun _ : K => V

namespace FiniteMap

variable {K V : Type} [DecidableEq K]

/-- The pairs of a map. -/
def items (d : FiniteMap K V) : List (K × V) := d.entries.map fun e => (e.1, e.2)

/-- Each pair set in turn. -/
def update (d : FiniteMap K V) (pairs : List (K × V)) : FiniteMap K V := pairs.foldl (fun d p => d.insert p.1 p.2) d

theorem mem_items {d : FiniteMap K V} {k : K} {v : V} : (k, v) ∈ d.items ↔ d.lookup k = some v := by
  rw [← Option.mem_def, AList.mem_lookup_iff, items, List.mem_map]
  constructor
  · rintro ⟨⟨k', v'⟩, hmem, heq⟩
    obtain ⟨rfl, rfl⟩ := Prod.mk.inj heq
    exact hmem
  · intro hmem
    exact ⟨⟨k, v⟩, hmem, rfl⟩

omit [DecidableEq K] in
theorem items_keys (d : FiniteMap K V) : d.items.map Prod.fst = d.keys := by
  rw [items, List.map_map]
  rfl

omit [DecidableEq K] in
theorem items_keys_nodup (d : FiniteMap K V) : (d.items.map Prod.fst).Nodup := items_keys d ▸ d.keys_nodup

/-- A key has the value of its pair, or the one it had. -/
theorem lookup_update {pairs : List (K × V)} (hpairs : (pairs.map Prod.fst).Nodup) (d : FiniteMap K V) (k : K) (v : V) :
    (update d pairs).lookup k = some v ↔ (k, v) ∈ pairs ∨ k ∉ pairs.map Prod.fst ∧ d.lookup k = some v := by
  induction pairs generalizing d with
  | nil => simp [update]
  | cons p pairs ih =>
    obtain ⟨hp, hrest⟩ := List.nodup_cons.mp hpairs
    have hcons : update d (p :: pairs) = update (d.insert p.1 p.2) pairs := rfl
    rw [hcons, ih hrest]
    by_cases hk : k = p.1
    · subst hk
      have hnot : (p.1, v) ∉ pairs := fun hmem => hp (List.mem_map.mpr ⟨_, hmem, rfl⟩)
      rw [AList.lookup_insert]
      simp only [hnot, hp, not_false_eq_true, true_and, false_or, Option.some.injEq, List.mem_cons, List.map_cons,
        not_true_eq_false, false_and, or_false]
      exact ⟨fun heq => Prod.ext rfl heq.symm, fun heq => (congrArg Prod.snd heq).symm⟩
    · have hne : ¬ (k, v) = p := fun heq => hk (congrArg Prod.fst heq)
      rw [AList.lookup_insert_ne hk]
      simp only [List.mem_cons, List.map_cons, hne, hk, false_or]

/-- New keys are pairs more. -/
theorem items_update_perm {pairs : List (K × V)} (hpairs : (pairs.map Prod.fst).Nodup) (d : FiniteMap K V)
    (hnew : ∀ p ∈ pairs, p.1 ∉ d) : (update d pairs).items.Perm (pairs ++ d.items) := by
  induction pairs generalizing d with
  | nil => exact List.Perm.refl _
  | cons p pairs ih =>
    obtain ⟨hp, hrest⟩ := List.nodup_cons.mp hpairs
    have hfresh := hnew p (List.mem_cons_self ..)
    have hitems : items (d.insert p.1 p.2) = p :: d.items := by
      rw [items, AList.entries_insert_of_notMem hfresh]
      rfl
    have hnew' : ∀ q ∈ pairs, q.1 ∉ (d.insert p.1 p.2 : FiniteMap K V) := by
      intro q hq hmem
      rcases (AList.mem_insert d).mp hmem with heq | hmem
      · exact hp (heq ▸ List.mem_map_of_mem (f := Prod.fst) hq)
      · exact hnew q (List.mem_cons_of_mem _ hq) hmem
    have hperm := ih hrest (d.insert p.1 p.2) hnew'
    rw [hitems] at hperm
    exact hperm.trans List.perm_middle

/-- The pairs of a map at some names. -/
def pick (d : FiniteMap K V) (names : List K) : FiniteMap K V :=
  update ∅ (names.filterMap fun name => (d.lookup name).map (name, ·))

theorem lookup_pick {names : List K} (hnames : names.Nodup) (d : FiniteMap K V) (k : K) (v : V) :
    (pick d names).lookup k = some v ↔ k ∈ names ∧ d.lookup k = some v := by
  have hsub : ((names.filterMap fun name => (d.lookup name).map (name, ·)).map Prod.fst).Sublist names := by
    induction names with
    | nil => exact List.Sublist.refl _
    | cons name names ih =>
      rw [List.filterMap_cons]
      cases d.lookup name with
      | none => exact (ih (List.nodup_cons.mp hnames).2).cons _
      | some value => exact (ih (List.nodup_cons.mp hnames).2).cons_cons _
  rw [pick, lookup_update (hsub.nodup hnames)]
  simp only [AList.lookup_empty, reduceCtorEq, and_false, or_false, List.mem_filterMap, Option.map_eq_some_iff,
    Prod.mk.injEq]
  constructor
  · rintro ⟨name, hmem, value, hvalue, rfl, rfl⟩
    exact ⟨hmem, hvalue⟩
  · rintro ⟨hmem, hvalue⟩
    exact ⟨k, hmem, v, hvalue, rfl, rfl⟩

/-! ## The order of a key -/

variable {α β : Type} [LinearOrder β]

/-- `sorted(names, key=key)`. -/
def sortBy (key : α → β) (names : List α) : List α := names.mergeSort fun a b => decide (key a ≤ key b)

theorem sortBy_perm (key : α → β) (names : List α) : (sortBy key names).Perm names := List.mergeSort_perm ..

theorem mem_sortBy {key : α → β} {names : List α} {a : α} : a ∈ sortBy key names ↔ a ∈ names :=
  (sortBy_perm key names).mem_iff

theorem sortBy_pairwise (key : α → β) (names : List α) : (sortBy key names).Pairwise fun a b => key a ≤ key b := by
  have hsorted := @List.pairwise_mergeSort _ (fun a b => decide (key a ≤ key b))
    (fun a b c hab hbc => by simpa using (of_decide_eq_true hab).trans (of_decide_eq_true hbc))
    (fun a b => by simpa using le_total (key a) (key b)) names
  exact hsorted.imp fun h => of_decide_eq_true h

/-- The first name with a property in the order is the least one. -/
theorem find?_sortBy {key : α → β} (hkey : Function.Injective key) {names : List α} {p : α → Bool} {a : α} :
    (sortBy key names).find? p = some a ↔
      (a ∈ names ∧ p a = true) ∧ ∀ b ∈ names, p b = true → key a ≤ key b := by
  have hfirst {a : α} (h : (sortBy key names).find? p = some a) :
      (a ∈ names ∧ p a = true) ∧ ∀ b ∈ names, p b = true → key a ≤ key b := by
    obtain ⟨hp, before, after, hsplit, hbefore⟩ := List.find?_eq_some_iff_append.mp h
    have hmem : a ∈ sortBy key names := hsplit ▸ List.mem_append_right _ (List.mem_cons_self ..)
    refine ⟨⟨mem_sortBy.mp hmem, hp⟩, fun b hb hpb => ?_⟩
    have hb' := (sortBy_perm key names).mem_iff.mpr hb
    have hsorted := sortBy_pairwise key names
    rw [hsplit] at hb' hsorted
    rcases List.mem_append.mp hb' with hb' | hb'
    · exact absurd hpb (by simpa using hbefore b hb')
    · rcases List.mem_cons.mp hb' with rfl | hb'
      · exact le_refl _
      · exact (List.pairwise_cons.mp (List.pairwise_append.mp hsorted).2.1).1 b hb'
  refine ⟨hfirst, fun ⟨⟨hmem, hp⟩, hleast⟩ => ?_⟩
  cases hfind : (sortBy key names).find? p with
  | none => exact absurd hp (by simpa using List.find?_eq_none.mp hfind a (mem_sortBy.mpr hmem))
  | some b =>
    obtain ⟨⟨hbmem, hpb⟩, hbleast⟩ := hfirst hfind
    exact congrArg some (hkey (le_antisymm (hbleast a hmem hp) (hleast b hbmem hpb)))

end FiniteMap
