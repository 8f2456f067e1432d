import MinionAgent.Llm.GraphReachable

/-!
# MinionAgent.Llm.Adopt

`adopt` (`llm/js_object.py`): the plain containers that no graph container
reaches are converted, depth first; the others are kept as they are.

* `convert`, `adopt` — the recursion, by its depth;
* `Adopting`, `convert_converts` — the containers converted so far;
* `adopt_frontier` — what the result is.
-/

namespace MinionAgent.JsObject

open PropertyOrder
open GraphCopy (Copying Kind Node Paired follow reached)

variable {A : Type}

/-! ## The recursion -/

/-- The heap, the lists of it that are `JsArray`s, and `memo`. -/
structure Adoption (A : Type) where
  heap : Heap A
  arrays : List Nat
  memo : List (Nat × Nat)

/-- `dict.__setitem__`. -/
def Container.setItem (key : Key) (value : Value A) : Container A → Container A
  | dict items => dict (put items key value)
  | jsObject items => jsObject (put items key value)
  | list values => list values

/-- `list.extend`. -/
def Container.extend (values : List (Value A)) : Container A → Container A
  | dict items => dict items
  | jsObject items => jsObject items
  | list values' => list (values' ++ values)

/-- A call of `convert`. -/
abbrev Call (A : Type) : Type := Value A → Adoption A → Option (Adoption A × Value A)

/-- One round of the loop over the items of a dict. -/
def convertItem (call : Call A) (t : Nat) (s : Adoption A) (item : Key × Value A) : Option (Adoption A) :=
  (call item.2 s).map fun (s, value) => { s with heap := s.heap.modify t (·.setItem item.1 value) }

/-- The list comprehension. -/
def convertAll (call : Call A) : List (Value A) → Adoption A → Option (Adoption A × List (Value A))
  | [], s => some (s, [])
  | value :: values, s =>
    (call value s).bind fun (s, value) => (convertAll call values s).map fun (s, values) => (s, value :: values)

/-- `convert`, for so many calls within each other. -/
def convert : Nat → Call A
  | 0, _, _ => none
  | _ + 1, .atom a, s => some (s, .atom a)
  | depth + 1, .ref r, s =>
    match s.memo.lookup r with
    | some t => some (s, .ref t)
    | none =>
      let t := s.heap.length
      s.heap[r]?.bind fun
        | .dict items | .jsObject items =>
          (items.foldlM (convertItem (convert depth) t)
            { s with
              heap := s.heap ++ [.jsObject []]
              memo := (r, t) :: s.memo }).map fun s =>
            ({ s with heap := orderInPlace s.heap (.ref t) }, .ref t)
        | .list values =>
          (convertAll (convert depth) values
            { heap := s.heap ++ [.list []]
              arrays := t :: s.arrays
              memo := (r, t) :: s.memo }).map fun (s, values) =>
            ({ s with heap := s.heap.modify t (·.extend values) }, .ref t)

/-- `adopt`; no container is converted twice, so that the calls are no deeper than
there are containers. -/
def adopt (h : Heap A) (arrays : List Nat) (value : Value A) : Option (Adoption A × Value A) :=
  let (heap, kept) := graphReachable arrays h value
  convert (h.length + 1) value ⟨heap, arrays, kept.map fun r => (r, r)⟩

/-! ## The containers converted -/

/-- The containers converted so far, those of `K` kept: the others are converted
to graph containers behind those there were. -/
structure Adopting (h : Heap A) (K : Set Nat) (s : Adoption A) (opened : Set Nat) : Prop where
  copying : Copying (graph h) (graph s.heap) s.memo opened
  length : h.length ≤ s.heap.length
  old : ∀ r < h.length, s.heap[r]? = h[r]? ∨ r ∈ K ∧ s.heap[r]? = h[r]?.map Container.reordered
  kept : ∀ r ∈ K, (r, r) ∈ s.memo
  pairs : ∀ r t, (r, t) ∈ s.memo → r < h.length ∧ (r ∈ K ∧ t = r ∨ r ∉ K ∧ h.length ≤ t ∧ t < s.heap.length)
  distinctKeys : DistinctKeys s.heap
  inside : ClosedIn s.heap {t | t ∈ s.memo.map Prod.snd}
  made : ∀ t container, h.length ≤ t → s.heap[t]? = some container → container.isGraph s.arrays t = true

theorem Container.isGraph_mono {container : Container A} {arrays arrays' : List Nat} (hsub : arrays ⊆ arrays') {r : Nat}
    (h : container.isGraph arrays r = true) : container.isGraph arrays' r = true := by
  cases container with
  | dict items => exact h
  | jsObject items => exact h
  | list values => exact List.contains_iff_mem.mpr (hsub (List.contains_iff_mem.mp h))

theorem Container.isGraph_reordered (container : Container A) (arrays : List Nat) (r : Nat) :
    container.reordered.isGraph arrays r = container.isGraph arrays r := by
  cases container <;> rfl

namespace Adopting

variable {h : Heap A} {K : Set Nat} {s : Adoption A} {opened : Set Nat}

theorem lt_of_target (hs : Adopting h K s opened) {r t : Nat} (hmem : (r, t) ∈ s.memo) : t < s.heap.length := by
  have hlength := hs.length
  obtain ⟨hr, ⟨-, rfl⟩ | ⟨-, -, ht⟩⟩ := hs.pairs r t hmem
  · omega
  · exact ht

/-- No more containers are in `memo` than there were. -/
theorem length_memo_le (hs : Adopting h K s opened) : s.memo.length ≤ h.length := by
  have hsub : s.memo.map Prod.fst ⊆ List.range h.length := by
    intro r hr
    obtain ⟨⟨r, t⟩, hmem, rfl⟩ := List.mem_map.mp hr
    exact List.mem_range.mpr (hs.pairs r t hmem).1
  simpa using (List.subperm_of_subset hs.copying.sources hsub).length_le

/-- A container that has none gets an empty graph container. -/
theorem allocate (hs : Adopting h K s opened) {r : Nat} (hr : r < h.length) (hnew : s.memo.lookup r = none)
    (container : Container A) (hempty : container.children = []) (hkeys : container.keys.Nodup) {arrays : List Nat}
    (harrays : s.arrays ⊆ arrays) (hgraph : container.isGraph arrays s.heap.length = true) :
    Adopting h K ⟨s.heap ++ [container], arrays, (r, s.heap.length) :: s.memo⟩ (insert r opened) := by
  have hnotMem := GraphCopy.notMem_of_lookup hnew
  have hrK : r ∉ K := fun hrK => hnotMem (List.mem_map_of_mem (hs.kept r hrK))
  have hlength := hs.length
  have hold {t : Nat} (ht : t < s.heap.length) : (s.heap ++ [container])[t]? = s.heap[t]? :=
    List.getElem?_append_left ht
  refine ⟨?_, ?_, fun r' hr' => ?_, fun r' hr' => List.mem_cons_of_mem _ (hs.kept r' hr'), fun r' t hmem => ?_,
    fun c hc => ?_, fun a ha b hb => ?_, fun t c ht hc => ?_⟩
  · refine (hs.copying.update fun r' t hmem _ => ?_).allocate hnotMem fun hmem => ?_
    · rw [graph, GraphCopy.nodes, hold (hs.lt_of_target hmem)]
      rfl
    · obtain ⟨⟨r', t⟩, hmem, ht⟩ := List.mem_map.mp hmem
      exact absurd ht (Nat.ne_of_lt (hs.lt_of_target hmem))
  · rw [List.length_append]
    omega
  · rw [hold (by omega)]
    exact hs.old r' hr'
  · rw [List.length_append, List.length_singleton]
    cases hmem with
    | head => exact ⟨hr, .inr ⟨hrK, hlength, Nat.lt_succ_self _⟩⟩
    | tail _ hmem =>
      obtain ⟨hr', hcases⟩ := hs.pairs r' t hmem
      exact ⟨hr', hcases.imp_right fun hcase => ⟨hcase.1, hcase.2.1, by omega⟩⟩
  · cases List.mem_append.mp hc with
    | inl hc => exact hs.distinctKeys c hc
    | inr hc => exact List.mem_singleton.mp hc ▸ hkeys
  · obtain ⟨c, hc, hmem⟩ := hb
    by_cases hlt : a < s.heap.length
    · rw [hold hlt] at hc
      have ha' : a ∈ s.memo.map Prod.snd := by
        cases ha with
        | head => exact absurd hlt (Nat.lt_irrefl _)
        | tail _ ha => exact ha
      exact List.mem_cons_of_mem _ (hs.inside a ha' b ⟨c, hc, hmem⟩)
    · rw [List.getElem?_append_right (Nat.le_of_not_lt hlt)] at hc
      obtain rfl := List.mem_singleton.mp (List.mem_of_getElem? hc)
      rw [hempty] at hmem
      cases hmem
  · by_cases hlt : t < s.heap.length
    · rw [hold hlt] at hc
      exact Container.isGraph_mono harrays (hs.made t c ht hc)
    · rw [List.getElem?_append_right (Nat.le_of_not_lt hlt)] at hc
      have hend : t = s.heap.length := by
        have hlt' := (List.getElem?_eq_some_iff.mp hc).1
        rw [List.length_singleton] at hlt'
        omega
      obtain rfl := List.mem_singleton.mp (List.mem_of_getElem? hc)
      exact hend ▸ hgraph

/-- The converted container of one that is open may change within its kind. -/
theorem modify (hs : Adopting h K s opened) {r t : Nat} (hmem : (r, t) ∈ s.memo) (hr : r ∈ opened) (hrK : r ∉ K)
    {container : Container A} (ht : s.heap[t]? = some container) (change : Container A → Container A)
    (hkeys : (change container).keys.Nodup)
    (hchildren : ∀ b, .ref b ∈ (change container).children → b ∈ s.memo.map Prod.snd)
    (hgraph : (change container).isGraph s.arrays t = container.isGraph s.arrays t) :
    Adopting h K { s with heap := s.heap.modify t change } opened := by
  have hother {t' : Nat} (hne : t' ≠ t) : (s.heap.modify t change)[t']? = s.heap[t']? :=
    List.getElem?_modify_ne _ s.heap hne.symm
  have hself : (s.heap.modify t change)[t]? = some (change container) := by
    rw [List.getElem?_modify_eq, ht]
    rfl
  have hnew : h.length ≤ t := by
    obtain ⟨-, ⟨hr', -⟩ | ⟨-, hnew, -⟩⟩ := hs.pairs r t hmem
    · exact absurd hr' hrK
    · exact hnew
  refine ⟨?_, ?_, fun r' hr' => ?_, hs.kept, fun r' t' hmem' => ?_, fun c hc => ?_, fun a ha b hb => ?_,
    fun t' c ht' hc => ?_⟩
  · refine hs.copying.update fun r' t' hmem' hr' => ?_
    have hne : t' ≠ t := by
      intro heq
      have hpair := List.inj_on_of_nodup_map hs.copying.targets hmem' hmem heq
      obtain rfl : r' = r := congrArg Prod.fst hpair
      exact hr' hr
    rw [graph, GraphCopy.nodes, hother hne]
    rfl
  · rw [List.length_modify]
    exact hs.length
  · rw [hother (by omega)]
    exact hs.old r' hr'
  · rw [List.length_modify]
    exact hs.pairs r' t' hmem'
  · obtain ⟨t', ht'⟩ := List.getElem?_of_mem hc
    by_cases heq : t' = t
    · rw [heq, hself] at ht'
      exact Option.some.inj ht' ▸ hkeys
    · rw [hother heq] at ht'
      exact hs.distinctKeys.get ht'
  · obtain ⟨c, hc, hmem'⟩ := hb
    by_cases heq : a = t
    · rw [heq, hself] at hc
      exact hchildren b (Option.some.inj hc ▸ hmem')
    · rw [hother heq] at hc
      exact hs.inside a ha b ⟨c, hc, hmem'⟩
  · by_cases heq : t' = t
    · rw [heq, hself] at hc
      rw [← Option.some.inj hc, heq, hgraph]
      exact hs.made t container hnew ht
    · rw [hother heq] at hc
      exact hs.made t' c ht' hc

/-- What has been converted may be re-sequenced. -/
theorem resequence (hs : Adopting h K s opened) {heap : Heap A}
    (hheap : Resequenced {t | t ∈ s.memo.map Prod.snd} s.heap heap) :
    Adopting h K { s with heap := heap } opened := by
  refine ⟨?_, ?_, fun r hr => ?_, hs.kept, fun r t hmem => ?_, hheap.distinctKeys hs.distinctKeys,
    hheap.closedIn hs.inside, fun t c ht hc => ?_⟩
  · rw [hheap.graph_eq hs.distinctKeys]
    exact hs.copying
  · rw [hheap.length]
    exact hs.length
  · obtain hcell | ⟨htarget, hcell⟩ := hheap.cell r
    · rw [hcell]
      exact hs.old r hr
    · obtain ⟨⟨r', t⟩, hmem, heq⟩ := List.mem_map.mp htarget
      obtain rfl : t = r := heq
      obtain ⟨-, ⟨hr', rfl⟩ | ⟨-, hnew, -⟩⟩ := hs.pairs r' t hmem
      · refine .inr ⟨hr', ?_⟩
        obtain hsame | ⟨-, hreordered⟩ := hs.old t hr
        · rw [hcell, hsame]
        · rw [hcell, hreordered, Option.map_map]
          exact congrFun (congrArg Option.map (funext Container.reordered_reordered)) _
      · exact absurd hr (Nat.not_lt_of_le hnew)
  · rw [hheap.length]
    exact hs.pairs r t hmem
  · obtain hcell | ⟨-, hcell⟩ := hheap.cell t
    · exact hs.made t c ht (hcell ▸ hc)
    · rw [hcell] at hc
      obtain ⟨c', hc', rfl⟩ := Option.map_eq_some_iff.mp hc
      rw [Container.isGraph_reordered]
      exact hs.made t c' ht hc'

end Adopting

/-! ## Calls -/

/-- A state further on: no container that there was is another, but for those
given. -/
structure Later (but : Set Nat) (s s' : Adoption A) : Prop where
  memo : s.memo <:+ s'.memo
  cell : ∀ t ∉ but, ∀ container, s.heap[t]? = some container →
    ∃ container', s'.heap[t]? = some container' ∧ (container' = container ∨ container' = container.reordered)

namespace Later

variable {but : Set Nat} {s s' s'' : Adoption A}

theorem refl (but : Set Nat) (s : Adoption A) : Later but s s :=
  ⟨List.suffix_refl _, fun _ _ container ht => ⟨container, ht, .inl rfl⟩⟩

theorem trans (h : Later but s s') (h' : Later but s' s'') : Later but s s'' := by
  refine ⟨h.memo.trans h'.memo, fun t ht container hcontainer => ?_⟩
  obtain ⟨c', hc', hcases⟩ := h.cell t ht container hcontainer
  obtain ⟨c'', hc'', hcases'⟩ := h'.cell t ht c' hc'
  refine ⟨c'', hc'', ?_⟩
  obtain rfl | rfl := hcases
  · exact hcases'
  · rw [Container.reordered_reordered] at hcases'
    exact .inr (hcases'.elim id id)

theorem mono (h : Later but s s') {but' : Set Nat} (hsub : but ⊆ but') : Later but' s s' :=
  ⟨h.memo, fun t ht => h.cell t fun hbut => ht (hsub hbut)⟩

theorem modify (h : Later but s s') {t : Nat} (ht : t ∈ but) (change : Container A → Container A) :
    Later but s { s' with heap := s'.heap.modify t change } := by
  refine ⟨h.memo, fun t' ht' container hcontainer => ?_⟩
  obtain ⟨c', hc', hcases⟩ := h.cell t' ht' container hcontainer
  have hne : t ≠ t' := fun heq => ht' (heq ▸ ht)
  exact ⟨c', by rw [List.getElem?_modify_ne _ s'.heap hne, hc'], hcases⟩

/-- What was before a container was made. -/
theorem of_allocate {container : Container A} {arrays : List Nat} {r : Nat}
    (h : Later {s.heap.length} ⟨s.heap ++ [container], arrays, (r, s.heap.length) :: s.memo⟩ s') : Later ∅ s s' := by
  refine ⟨(List.suffix_cons _ _).trans h.memo, fun t _ c hc => h.cell t ?_ c ?_⟩
  · exact Nat.ne_of_lt (List.getElem?_eq_some_iff.mp hc).1
  · rw [List.getElem?_append_left (List.getElem?_eq_some_iff.mp hc).1, hc]

theorem resequence (h : Later but s s') {K : Set Nat} {heap : Heap A} (hheap : Resequenced K s'.heap heap) :
    Later but s { s' with heap := heap } :=
  h.trans ⟨List.suffix_refl _, fun _ _ _ ht => hheap.get ht⟩

end Later

/-- A call pairs its value with what it returns, and completes what it converts. -/
def Converts (h : Heap A) (K opened : Set Nat) (s : Adoption A) (value : Value A)
    (result : Option (Adoption A × Value A)) : Prop :=
  ∃ s' value', result = some (s', value') ∧ Adopting h K s' opened ∧ Later ∅ s s' ∧
    Paired s'.memo value.toSum value'.toSum

/-- Calls that convert, from where `memo` has the pairs of `memo₀`. -/
def CallsConvert (h : Heap A) (K opened : Set Nat) (memo₀ : List (Nat × Nat)) (call : Call A) : Prop :=
  ∀ value s, (∀ r, value = .ref r → r < h.length) → memo₀ <:+ s.memo → Adopting h K s opened →
    Converts h K opened s value (call value s)

/-- Items and what they are converted to. -/
def PairedItems (memo : List (Nat × Nat)) (items items' : List (Key × Value A)) : Prop :=
  List.Forall₂ (fun item item' => item.1 = item'.1 ∧ Paired memo item.2.toSum item'.2.toSum) items items'

theorem PairedItems.mono {memo memo' : List (Nat × Nat)} (hsub : memo ⊆ memo') {items items' : List (Key × Value A)}
    (h : PairedItems memo items items') : PairedItems memo' items items' :=
  h.imp fun _ _ hitem => ⟨hitem.1, hitem.2.mono hsub⟩

theorem PairedItems.keys {memo : List (Nat × Nat)} {items items' : List (Key × Value A)}
    (h : PairedItems memo items items') : items'.map Prod.fst = items.map Prod.fst := by
  induction h with
  | nil => rfl
  | cons hitem _ ih => rw [List.map_cons, List.map_cons, ih, hitem.1]

theorem PairedItems.paired_object {memo : List (Nat × Nat)} {items items' : List (Key × Value A)}
    (h : PairedItems memo items items') :
    (Node.object (items.map (Prod.map id Value.toSum))).Paired memo
      (Node.object (items'.map (Prod.map id Value.toSum))) :=
  GraphCopy.paired_object (List.forall₂_map_left_iff.mpr (List.forall₂_map_right_iff.mpr h))

theorem target_of_paired {memo : List (Nat × Nat)} {value : A ⊕ Nat} {b : Nat}
    (h : Paired memo value (Value.ref b : Value A).toSum) : b ∈ memo.map Prod.snd := by
  cases h with
  | inr hmem => exact List.mem_map.mpr ⟨_, hmem, rfl⟩

section

variable {h : Heap A} {K opened : Set Nat} {memo₀ : List (Nat × Nat)} {call : Call A}

/-- The loop over the items of a dict: the object has those converted, in some
order. -/
theorem convertItems (hcall : CallsConvert h K opened memo₀ call) {r t : Nat} (hr : r ∈ opened) (hrK : r ∉ K)
    (hmem : (r, t) ∈ memo₀) {items : List (Key × Value A)} (done : List (Key × Value A))
    (hnodup : ((done ++ items).map Prod.fst).Nodup)
    (hitems : ∀ item ∈ items, ∀ r, item.2 = .ref r → r < h.length) {s : Adoption A} (hs : Adopting h K s opened)
    (hmemo : memo₀ <:+ s.memo) {filled converted : List (Key × Value A)} (ht : s.heap[t]? = some (.jsObject filled))
    (hperm : filled.Perm converted) (hdone : PairedItems s.memo done converted) :
    ∃ s' filled' converted', items.foldlM (convertItem call t) s = some s' ∧ Adopting h K s' opened ∧
      Later {t} s s' ∧ s'.heap[t]? = some (.jsObject filled') ∧ filled'.Perm converted' ∧
      PairedItems s'.memo (done ++ items) converted' := by
  induction items generalizing done s filled converted with
  | nil => exact ⟨s, filled, converted, rfl, hs, .refl _ s, ht, hperm, by rwa [List.append_nil]⟩
  | cons item items ih =>
    obtain ⟨s₁, value, hreturn, hs₁, hlater, hpaired⟩ := hcall item.2 s (hitems item (List.mem_cons_self ..)) hmemo hs
    obtain ⟨filled₁, ht₁, hperm₁⟩ : ∃ filled₁, s₁.heap[t]? = some (.jsObject filled₁) ∧ filled₁.Perm converted := by
      obtain ⟨c, hc, rfl | rfl⟩ := hlater.cell t (Set.notMem_empty t) _ ht
      · exact ⟨filled, hc, hperm⟩
      · exact ⟨esOrder filled, hc, (ordered_perm filled).trans hperm⟩
    have hmem₁ : (r, t) ∈ s₁.memo := (hmemo.trans hlater.memo).subset hmem
    have hdone₁ := hdone.mono hlater.memo.subset
    have hnew : item.1 ∉ filled₁.map Prod.fst := by
      rw [(hperm₁.map Prod.fst).mem_iff, hdone₁.keys]
      simp only [List.map_append, List.map_cons, List.nodup_append', List.nodup_cons] at hnodup
      exact fun hmem => List.disjoint_left.mp hnodup.2.2 hmem (List.mem_cons_self ..)
    have hset : (Container.jsObject filled₁).setItem item.1 value = .jsObject (filled₁ ++ [(item.1, value)]) :=
      congrArg Container.jsObject (put_of_notMem hnew value)
    have hs₂ : Adopting h K { s₁ with heap := s₁.heap.modify t (·.setItem item.1 value) } opened := by
      refine hs₁.modify hmem₁ hr hrK ht₁ (·.setItem item.1 value) ?_ (fun b hb => ?_) ?_
      · exact nodup_put (hs₁.distinctKeys.get ht₁) item.1 value
      · rw [hset, Container.children, List.map_append, List.mem_append] at hb
        cases hb with
        | inl hb =>
          exact hs₁.inside t (List.mem_map.mpr ⟨_, hmem₁, rfl⟩) b ⟨_, ht₁, hb⟩
        | inr hb =>
          obtain rfl := List.mem_singleton.mp hb
          exact target_of_paired hpaired
      · rfl
    have ht₂ : (s₁.heap.modify t (·.setItem item.1 value))[t]? =
        some (.jsObject (filled₁ ++ [(item.1, value)])) := by
      rw [List.getElem?_modify_eq, ht₁, ← hset]
      rfl
    have hdone₂ : PairedItems s₁.memo (done ++ [item]) (converted ++ [(item.1, value)]) :=
      List.rel_append hdone₁ (.cons ⟨rfl, hpaired⟩ .nil)
    obtain ⟨s', filled', converted', hfold, hs', hlater', hfilled, hperm', hall⟩ := ih _ (by simpa using hnodup)
      (fun item' hitem' => hitems item' (List.mem_cons_of_mem _ hitem')) hs₂ (hmemo.trans hlater.memo) ht₂
      (hperm₁.append_right _) hdone₂
    have hlater'' := ((hlater.mono (Set.empty_subset _)).modify (Set.mem_singleton t) _).trans hlater'
    refine ⟨s', filled', converted', ?_, hs', hlater'', hfilled, hperm', by simpa using hall⟩
    rw [List.foldlM_cons, convertItem, hreturn]
    exact hfold

/-- The comprehension over the elements of a list. -/
theorem convertAll_converts (hcall : CallsConvert h K opened memo₀ call) {values : List (Value A)}
    (hvalues : ∀ r, .ref r ∈ values → r < h.length) {s : Adoption A} (hs : Adopting h K s opened)
    (hmemo : memo₀ <:+ s.memo) :
    ∃ s' values', convertAll call values s = some (s', values') ∧ Adopting h K s' opened ∧ Later ∅ s s' ∧
      List.Forall₂ (Paired s'.memo) (values.map Value.toSum) (values'.map Value.toSum) := by
  induction values generalizing s with
  | nil => exact ⟨s, [], rfl, hs, .refl _ s, .nil⟩
  | cons value values ih =>
    obtain ⟨s₁, value', hreturn, hs₁, hlater, hpaired⟩ :=
      hcall value s (fun r hr => hvalues r (hr ▸ List.mem_cons_self ..)) hmemo hs
    obtain ⟨s', values', hall, hs', hlater', hpairs⟩ :=
      ih (fun r hr => hvalues r (List.mem_cons_of_mem _ hr)) hs₁ (hmemo.trans hlater.memo)
    refine ⟨s', value' :: values', ?_, hs', hlater.trans hlater', .cons (hpaired.mono hlater'.memo.subset) hpairs⟩
    rw [convertAll, hreturn, Option.bind_some]
    simp only [hall, Option.map_some]

end

theorem convert_known {s : Adoption A} {r t : Nat} (h : s.memo.lookup r = some t) (depth : Nat) :
    convert (depth + 1) (.ref r) s = some (s, .ref t) := by
  rw [convert, h]

/-- The items of a plain dict, or of a `JsObject`. -/
def Container.IsDict (items : List (Key × Value A)) (container : Container A) : Prop :=
  container = .dict items ∨ container = .jsObject items

theorem convert_dict {s : Adoption A} {r : Nat} (h : s.memo.lookup r = none) {container : Container A}
    (hr : s.heap[r]? = some container) {items : List (Key × Value A)} (hitems : container.IsDict items) (depth : Nat) :
    convert (depth + 1) (.ref r) s =
      (items.foldlM (convertItem (convert depth) s.heap.length)
        ⟨s.heap ++ [.jsObject []], s.arrays, (r, s.heap.length) :: s.memo⟩).map fun s' =>
          ({ s' with heap := orderInPlace s'.heap (.ref s.heap.length) }, .ref s.heap.length) := by
  rw [convert, h, hr]
  obtain rfl | rfl := hitems <;> rfl

theorem convert_list {s : Adoption A} {r : Nat} (h : s.memo.lookup r = none) {values : List (Value A)}
    (hr : s.heap[r]? = some (.list values)) (depth : Nat) :
    convert (depth + 1) (.ref r) s =
      (convertAll (convert depth) values
        ⟨s.heap ++ [.list []], s.heap.length :: s.arrays, (r, s.heap.length) :: s.memo⟩).map fun (s', values) =>
          ({ s' with heap := s'.heap.modify s.heap.length (·.extend values) }, .ref s.heap.length) := by
  rw [convert, h, hr]
  rfl

/-- A container of which all is converted is complete. -/
theorem Adopting.close {h : Heap A} {K opened : Set Nat} {s : Adoption A} {r t : Nat}
    (hs : Adopting h K s (insert r opened)) (hmem : (r, t) ∈ s.memo) {container container' : Container A}
    (hr : h[r]? = some container) (ht : s.heap[t]? = some container')
    (hpaired : container.node.Paired s.memo container'.node) : Adopting h K s opened := by
  have hclose := hs.copying.close hmem (congrArg (Option.map Container.node) hr)
    (congrArg (Option.map Container.node) ht) hpaired
  exact { hs with copying := hclose.mono fun r' hr' => hr'.1.resolve_left hr'.2 }

/-- The items of a dict are converted to an object. -/
theorem convert_dict_converts {h : Heap A} {K opened : Set Nat} (hclosed : Closed h) (hkeys : DistinctKeys h)
    {depth : Nat} {s : Adoption A} (hs : Adopting h K s opened) {r : Nat} (hlt : r < h.length) (hrK : r ∉ K)
    (hlookup : s.memo.lookup r = none)
    (hcall : CallsConvert h K (insert r opened) ((r, s.heap.length) :: s.memo) (convert depth))
    {container : Container A} (hr : h[r]? = some container) {items : List (Key × Value A)}
    (hitems : container.IsDict items) : Converts h K opened s (.ref r) (convert (depth + 1) (.ref r) s) := by
  have hnodup : (items.map Prod.fst).Nodup := by
    have hnodup := hkeys.get hr
    obtain rfl | rfl := hitems <;> exact hnodup
  have hbound (item : Key × Value A) (hitem : item ∈ items) (b : Nat) (hb : item.2 = .ref b) : b < h.length := by
    refine hclosed container (List.mem_of_getElem? hr) b ?_
    obtain rfl | rfl := hitems <;> exact hb ▸ List.mem_map_of_mem hitem
  have hnode : container.node = Node.object (items.map (Prod.map id Value.toSum)) := by
    obtain rfl | rfl := hitems <;> rfl
  have hstart := hs.allocate hlt hlookup (.jsObject []) rfl List.nodup_nil (List.Subset.refl _) rfl
  obtain ⟨s', filled, converted, hfold, hs', hlater, hfilled, hperm, hpairs⟩ :=
    convertItems hcall (Set.mem_insert r opened) hrK (List.mem_cons_self ..) [] hnodup hbound hstart
      (List.suffix_refl _) List.getElem?_concat_length (.refl []) .nil
  have hmem : (r, s.heap.length) ∈ s'.memo := hlater.memo.subset (List.mem_cons_self ..)
  have hkeys' := hs'.distinctKeys.get hfilled
  have hheap : Resequenced {t | t ∈ s'.memo.map Prod.snd} s'.heap (orderInPlace s'.heap (.ref s.heap.length)) :=
    .orderInPlace hs'.inside fun b hb => Value.ref.inj hb ▸ List.mem_map.mpr ⟨_, hmem, rfl⟩
  obtain ⟨container', hcontainer', hcases⟩ := hheap.get hfilled
  have hnode' : container'.node = Node.object (converted.map (Prod.map id Value.toSum)) := by
    have hfirst : container'.node = (Container.jsObject filled).node := by
      obtain rfl | rfl := hcases
      · rfl
      · exact Container.node_reordered hkeys'
    rw [hfirst]
    refine GraphCopy.object_perm (hperm.map _) ?_
    rw [List.map_map]
    exact hkeys'
  have hpaired : container.node.Paired s'.memo container'.node := by
    rw [hnode, hnode']
    exact hpairs.paired_object
  refine ⟨{ s' with heap := orderInPlace s'.heap (.ref s.heap.length) }, .ref s.heap.length, ?_,
    (hs'.resequence hheap).close hmem hr hcontainer' hpaired, hlater.of_allocate.resequence hheap, .inr hmem⟩
  rw [convert_dict hlookup ((hs.old r hlt).resolve_right (fun hold => hrK hold.1) |>.trans hr) hitems, hfold,
    Option.map_some]

/-- The elements of a list are converted to an array. -/
theorem convert_list_converts {h : Heap A} {K opened : Set Nat} (hclosed : Closed h) {depth : Nat} {s : Adoption A}
    (hs : Adopting h K s opened) {r : Nat} (hlt : r < h.length) (hrK : r ∉ K) (hlookup : s.memo.lookup r = none)
    (hcall : CallsConvert h K (insert r opened) ((r, s.heap.length) :: s.memo) (convert depth))
    {values : List (Value A)} (hr : h[r]? = some (.list values)) :
    Converts h K opened s (.ref r) (convert (depth + 1) (.ref r) s) := by
  have hbound (b : Nat) (hb : .ref b ∈ values) : b < h.length := hclosed _ (List.mem_of_getElem? hr) b hb
  have hstart := hs.allocate hlt hlookup (.list []) rfl List.nodup_nil (List.subset_cons_self s.heap.length s.arrays)
    (List.contains_iff_mem.mpr (List.mem_cons_self ..))
  obtain ⟨s', values', hall, hs', hlater, hpairs⟩ := convertAll_converts hcall hbound hstart (List.suffix_refl _)
  have hmem : (r, s.heap.length) ∈ s'.memo := hlater.memo.subset (List.mem_cons_self ..)
  have hempty : s'.heap[s.heap.length]? = some (.list []) := by
    obtain ⟨c, hc, rfl | rfl⟩ := hlater.cell _ (Set.notMem_empty _) _ List.getElem?_concat_length
    · exact hc
    · exact hc
  have hfilled : (s'.heap.modify s.heap.length (·.extend values'))[s.heap.length]? = some (.list values') := by
    rw [List.getElem?_modify_eq, hempty]
    rfl
  have hchildren (b : Nat) (hb : .ref b ∈ values') : b ∈ s'.memo.map Prod.snd := by
    obtain ⟨i, hi⟩ := List.getElem?_of_mem (List.mem_map_of_mem (f := Value.toSum) hb)
    obtain ⟨hlength, hget⟩ := List.forall₂_iff_get.mp hpairs
    obtain ⟨hilt, hi⟩ := List.getElem?_eq_some_iff.mp hi
    have hpaired := hget i (hlength ▸ hilt) hilt
    rw [List.get_eq_getElem, List.get_eq_getElem, hi] at hpaired
    exact target_of_paired hpaired
  have hdone := hs'.modify hmem (Set.mem_insert r opened) hrK hempty (·.extend values') List.nodup_nil
    hchildren rfl
  refine ⟨_, .ref s.heap.length, ?_, hdone.close hmem hr hfilled (GraphCopy.paired_array hpairs),
    ((hlater.mono (Set.empty_subset _)).modify (Set.mem_singleton _) _).of_allocate, .inr hmem⟩
  rw [convert_list hlookup ((hs.old r hlt).resolve_right (fun hold => hrK hold.1) |>.trans hr), hall, Option.map_some]

/-- `convert` returns: each call within another has one container more. -/
theorem convert_converts {h : Heap A} {K : Set Nat} (hclosed : Closed h) (hkeys : DistinctKeys h) {depth : Nat}
    {opened : Set Nat} {s : Adoption A} (hs : Adopting h K s opened) (hdepth : h.length < depth + s.memo.length)
    {value : Value A} (hvalue : ∀ r, value = .ref r → r < h.length) :
    Converts h K opened s value (convert depth value s) := by
  induction depth generalizing opened s value with
  | zero =>
    have hlength := hs.length_memo_le
    omega
  | succ depth ih =>
    cases value with
    | atom a => exact ⟨s, .atom a, rfl, hs, .refl _ s, .inl rfl⟩
    | ref r =>
      cases hlookup : s.memo.lookup r with
      | some t =>
        rw [convert_known hlookup]
        exact ⟨s, .ref t, rfl, hs, .refl _ s, .inr (GraphCopy.mem_of_lookup hlookup)⟩
      | none =>
        have hlt := hvalue r rfl
        have hrK : r ∉ K := fun hrK => GraphCopy.notMem_of_lookup hlookup (List.mem_map.mpr ⟨_, hs.kept r hrK, rfl⟩)
        have hcall : CallsConvert h K (insert r opened) ((r, s.heap.length) :: s.memo) (convert depth) := by
          intro value s₁ hvalue hmemo hs₁
          have hlength := hmemo.length_le
          rw [List.length_cons] at hlength
          exact ih hs₁ (by omega) hvalue
        have hr : h[r]? = some h[r] := List.getElem?_eq_getElem hlt
        cases hcontainer : h[r] with
        | dict items =>
          exact convert_dict_converts hclosed hkeys hs hlt hrK hlookup hcall (hcontainer ▸ hr) (.inl rfl)
        | jsObject items =>
          exact convert_dict_converts hclosed hkeys hs hlt hrK hlookup hcall (hcontainer ▸ hr) (.inr rfl)
        | list values => exact convert_list_converts hclosed hs hlt hrK hlookup hcall (hcontainer ▸ hr)

/-! ## The result -/

/-- What `adopt` is given: a value in a heap, of which some lists are
`JsArray`s. -/
structure Adoptable (A : Type) extends ArgumentGraph A where
  arrays : List Nat
  isList : ∀ r ∈ arrays, ∃ values, heap[r]? = some (.list values)

/-- Before any is converted, the kept containers are paired with themselves. -/
theorem adopting_start {h heap : Heap A} {K : Set Nat} (hkeys : DistinctKeys h) (hK : ClosedIn h K)
    (hbound : ∀ r ∈ K, r < h.length) (hheap : Resequenced K h heap) {kept : List Nat} (hnodup : kept.Nodup)
    (hkept : ∀ r, r ∈ kept ↔ r ∈ K) (arrays : List Nat) :
    Adopting h K ⟨heap, arrays, kept.map fun r => (r, r)⟩ ∅ := by
  have hmem {r t : Nat} (h : (r, t) ∈ kept.map fun r => (r, r)) : r ∈ K ∧ t = r := by
    obtain ⟨r', hr', heq⟩ := List.mem_map.mp h
    obtain ⟨rfl, rfl⟩ := Prod.mk.inj heq
    exact ⟨(hkept r').mp hr', rfl⟩
  have hfst : (kept.map fun r => (r, r)).map Prod.fst = kept := (List.map_map ..).trans (List.map_id kept)
  have hsnd : (kept.map fun r => (r, r)).map Prod.snd = kept := (List.map_map ..).trans (List.map_id kept)
  have hself {r : Nat} (hr : r ∈ K) : (r, r) ∈ kept.map fun r => (r, r) := List.mem_map.mpr ⟨r, (hkept r).mpr hr, rfl⟩
  refine ⟨⟨hfst.symm ▸ hnodup, hsnd.symm ▸ hnodup, fun r t hpair _ => ?_⟩, hheap.length.ge,
    fun r _ => hheap.cell r, fun r => hself, fun r t hpair => ?_, hheap.distinctKeys hkeys, ?_, fun t c ht hc => ?_⟩
  · obtain ⟨hr, rfl⟩ := hmem hpair
    have hlt := hbound t hr
    have hcontainer : h[t]? = some h[t] := List.getElem?_eq_getElem hlt
    have hnode : graph h t = some h[t].node := congrArg (Option.map Container.node) hcontainer
    refine ⟨_, _, hnode, (congrFun (hheap.graph_eq hkeys) t).trans hnode, ?_⟩
    exact Node.paired_self fun l b hb => hself (hK t hr b ⟨_, hcontainer, Container.mem_children_of_field hb⟩)
  · obtain ⟨hr, rfl⟩ := hmem hpair
    exact ⟨hbound t hr, .inl ⟨hr, rfl⟩⟩
  · have hset : {t | t ∈ (kept.map fun r => (r, r)).map Prod.snd} = K := by
      rw [hsnd]
      exact Set.ext hkept
    rw [hset]
    exact hheap.closedIn hK
  · rw [List.getElem?_eq_none (hheap.length ▸ ht)] at hc
    cases hc

/-- `adopt` returns the graph of its value: the containers at or below a graph
container are those they were, each other is one new `JsObject` or `JsArray`, and
two paths lead to the same where they did.  Plain containers that are not kept
are left as they were. -/
theorem adopt_frontier (g : Adoptable A) :
    ∃ s v' f, adopt g.heap g.arrays g.value = some (s, v') ∧
      (v'.toSum = g.value.toSum.map id f ∧
        Set.BijOn f (reached (graph g.heap) g.value.toSum) (reached (graph s.heap) v'.toSum) ∧
        ∀ r ∈ reached (graph g.heap) g.value.toSum, graph s.heap (f r) = (graph g.heap r).map (Node.map f)) ∧
      (∀ path path', follow (graph s.heap) v'.toSum path = follow (graph s.heap) v'.toSum path' ↔
        follow (graph g.heap) g.value.toSum path = follow (graph g.heap) g.value.toSum path') ∧
      (∀ r ∈ keptOf g.arrays g.heap g.value.toSum, f r = r ∧
        (s.heap[r]? = g.heap[r]? ∨ s.heap[r]? = g.heap[r]?.map Container.reordered)) ∧
      (∀ r ∈ reached (graph g.heap) g.value.toSum, r ∉ keptOf g.arrays g.heap g.value.toSum →
        g.heap.length ≤ f r ∧ isGraph s.arrays s.heap (f r) = true) ∧
      ∀ r < g.heap.length, r ∉ keptOf g.arrays g.heap g.value.toSum → s.heap[r]? = g.heap[r]? := by
  obtain ⟨⟨h, v, hclosed, hkeys, hroot⟩, arrays, hlists⟩ := g
  obtain ⟨hheap, hkept, hnodup⟩ := graphReachable_spec hclosed hkeys hlists hroot
  have hK := closedIn_keptOf hkeys arrays v.toSum
  have hbound (r : Nat) (hr : r ∈ keptOf arrays h v.toSum) : r < h.length :=
    reached_lt hclosed hroot (keptOf_subset hkeys arrays v.toSum hr)
  have hstart := adopting_start hkeys hK hbound hheap hnodup hkept arrays
  have hconverts : Converts h (keptOf arrays h v.toSum) ∅ _ v (convert (h.length + 1) v _) :=
    convert_converts hclosed hkeys hstart (by omega) hroot
  obtain ⟨s, v', hreturn, hs, -, hpaired⟩ := hconverts
  have hcopy := hs.copying.isCopy hpaired
  have hlength := hs.length
  refine ⟨s, v', Copying.target s.memo, hreturn, ⟨hcopy.root, hcopy.bijOn_reached, hcopy.node⟩, hcopy.follow_eq_iff,
    fun r hr => ⟨Copying.target_eq hs.copying.sources (hs.kept r hr), ?_⟩, fun r hr hrK => ?_, fun r hr hrK => ?_⟩
  · exact (hs.old r (hbound r hr)).imp_right And.right
  · obtain ⟨⟨r, t⟩, hmem, rfl⟩ := List.mem_map.mp (hs.copying.reached_subset hpaired hr)
    rw [Copying.target_eq hs.copying.sources hmem]
    obtain ⟨-, hnew, hlt⟩ := (hs.pairs r t hmem).2.resolve_left fun hold => hrK hold.1
    refine ⟨hnew, ?_⟩
    rw [isGraph, List.getElem?_eq_getElem hlt]
    exact hs.made t _ hnew (List.getElem?_eq_getElem hlt)
  · exact (hs.old r hr).resolve_right fun hold => hrK hold.1

/-- A plain dict that holds itself, and one list under two keys, above a
`JsArray` that is shared. -/
def sharedMixture : Adoptable Nat where
  heap :=
    [.dict [([0x61], .ref 0), ([0x62], .ref 1), ([0x63], .ref 1), ([0x64], .ref 2)], .list [.ref 0, .ref 2],
      .list [.atom 7]]
  value := .ref 0
  closed := by simp [Closed, Container.children]
  distinctKeys := by simp [DistinctKeys, Container.keys]
  root := by simp
  arrays := [2]
  isList := by simp

/-- The `JsArray` is kept, and the list that was shared is shared. -/
theorem adopt_frontier_cyclic :
    ∃ s v', ∃ f : Nat → Nat, adopt sharedMixture.heap [2] (.ref 0) = some (s, v') ∧ v'.toSum = .inr (f 0) ∧ f 2 = 2 ∧
      follow (graph s.heap) v'.toSum [.inl [0x62]] = follow (graph s.heap) v'.toSum [.inl [0x63]] := by
  obtain ⟨s, v', f, hreturn, ⟨hroot, -⟩, halias, hkept, -⟩ := adopt_frontier sharedMixture
  have hmem : 2 ∈ keptOf sharedMixture.arrays sharedMixture.heap sharedMixture.value.toSum :=
    ⟨2, ⟨[.inl [0x64]], rfl⟩, rfl, GraphCopy.reached_self _ 2⟩
  exact ⟨s, v', f, hreturn, hroot, (hkept 2 hmem).1, (halias [.inl [0x62]] [.inl [0x63]]).mpr rfl⟩

end MinionAgent.JsObject
