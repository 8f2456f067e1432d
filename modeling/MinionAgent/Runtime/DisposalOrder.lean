import Mathlib.Data.List.Pairwise
import MinionAgent.Runtime.ScopeTree

/-!
# MinionAgent.Runtime.DisposalOrder

Which scopes `Scope.dispose` finds, and in which order.

It follows `children_of` from the scope down, which knows one scope of every
key and only those whose parent key is there.  `ScopeTree.disposalOrder` is
the order in which the lists are disposed when nothing raises.

* `mem_disposalOrder_iff` — it holds the scopes that are `Found`, which is said
  of keys and of the scopes minted under them;
* `pairwise_disposalOrder` — they stand in it as `Precedes` says: what is below
  a scope before it, and of two siblings the one first minted later.
-/

namespace MinionAgent

namespace ScopeKey

/-- Of two keys at or above a path, the deeper one is the other or below it. -/
theorem eq_or_below {k₁ k₂ : ScopeKey} {names : List String} (h₁ : k₁.path <:+ names) (h₂ : k₂.path <:+ names)
    (hle : k₁.path.length ≤ k₂.path.length) : k₂ = k₁ ∨ k₂.Below k₁ := by
  rcases List.suffix_cons_iff.mp (List.suffix_of_suffix_length_le h₁ h₂ hle) with heq | hbelow
  · exact .inl (path_injective heq).symm
  · exact .inr hbelow

theorem length_of_parent? {key parent : ScopeKey} (h : key.parent? = some parent) :
    key.path.length = parent.path.length + 1 := by
  rw [path, parent?_eq_some.mp h, List.length_cons]

theorem Below.length_lt {key ancestor : ScopeKey} (h : key.Below ancestor) :
    ancestor.path.length < key.path.length :=
  Nat.lt_succ_of_le (List.IsSuffix.length_le h)

/-- A key below another is at or below one of its children. -/
theorem Below.child {key ancestor : ScopeKey} (h : key.Below ancestor) :
    ∃ child : ScopeKey, child.parent? = some ancestor ∧ (key = child ∨ key.Below child) := by
  obtain ⟨names, hnames⟩ := h
  have hne : key.name :: names ≠ [] := by simp
  have hlast := List.dropLast_append_getLast hne
  have hchild : (⟨(key.name :: names).getLast hne, ancestor.path⟩ : ScopeKey).path <:+ key.path := by
    refine ⟨(key.name :: names).dropLast, ?_⟩
    have hpath : ((key.name :: names).dropLast ++ [(key.name :: names).getLast hne]) ++ ancestor.path = key.path := by
      rw [hlast, List.cons_append, hnames, path]
    rwa [List.append_assoc] at hpath
  exact ⟨_, parent?_eq_some.mpr rfl, eq_or_below hchild List.suffix_rfl hchild.length_le⟩

end ScopeKey

namespace ScopeTree

/-- The scopes `dispose` of a scope disposes of when nothing raises, in the
order of their `dispose_all`. -/
def disposalOrder : Nat → ScopeTree → Nat → List Nat
  | 0, _, _ => []
  | fuel + 1, t, s =>
    match t.minted[s]? with
    | none => []
    | some scope => (t.childrenOf scope.key).reverse.flatMap (disposalOrder fuel t) ++ [s]

/-- The key of a scope. -/
def keyOf (t : ScopeTree) (s : Nat) : Option ScopeKey := (t.minted[s]?).map MintedScope.key

/-- The first scope of a key was minted before all those of another one. -/
def Earlier (t : ScopeTree) (k k' : ScopeKey) : Prop :=
  ∃ i, t.keyOf i = some k ∧ ∀ j, t.keyOf j = some k' → i < j

/-- The table tracks the last scope of every key, in the order the keys were
first used. -/
structure Tracks (t : ScopeTree) : Prop where
  keyed : ∀ key s, (key, s) ∈ t.table → t.keyOf s = some key
  latest : ∀ key s x, (key, s) ∈ t.table → t.keyOf x = some key → x ≤ s
  tracked : ∀ key s, t.keyOf s = some key → key ∈ t.table.map Prod.fst
  inOrder : (t.table.map Prod.fst).Pairwise t.Earlier

/-- A live scope, the last one minted under its key. -/
def Visible (t : ScopeTree) (s : Nat) : Prop :=
  t.isDisposed s = false ∧ ∀ x, t.keyOf x = t.keyOf s → x ≤ s

/-- What the disposal of a scope finds: the scope itself, and the visible
scopes below its key with a visible one under every key between. -/
def Found (t : ScopeTree) (s x : Nat) : Prop :=
  x = s ∨ t.Visible x ∧ ∃ key k, t.keyOf s = some key ∧ t.keyOf x = some k ∧ k.Below key ∧
    ∀ between : ScopeKey, k.Below between → between.Below key → ∃ y, t.keyOf y = some between ∧ t.Visible y

/-- Which of two scopes is disposed first: one below the other, or one at or
below the sibling that was first minted later. -/
def Precedes (t : ScopeTree) (x y : Nat) : Prop :=
  ∃ kx ky, t.keyOf x = some kx ∧ t.keyOf y = some ky ∧
    (kx.Below ky ∨ ∃ a b : ScopeKey, a.parent? = b.parent? ∧ a.path <:+ kx.path ∧ b.path <:+ ky.path ∧ t.Earlier b a)

/-- Fuel for the keys below one. -/
def Deep (t : ScopeTree) (key : ScopeKey) (fuel : Nat) : Prop :=
  ∀ s k, t.keyOf s = some k → k.path.length < key.path.length + fuel

variable {t : ScopeTree} {key : ScopeKey}

/-! ## The children of a key -/

theorem Earlier.asymm {k k' : ScopeKey} (h : t.Earlier k k') : ¬ t.Earlier k' k := by
  rintro ⟨j, hj, hbefore'⟩
  obtain ⟨i, hi, hbefore⟩ := h
  exact Nat.lt_asymm (hbefore j hj) (hbefore' i hi)

theorem Tracks.keys (htracks : t.Tracks) : (t.table.map Prod.fst).Nodup := by
  refine htracks.inOrder.imp ?_
  rintro k _ h rfl
  exact h.asymm h

theorem mem_childrenOf {s : Nat} :
    s ∈ t.childrenOf key ↔ ∃ k, (k, s) ∈ t.table ∧ k.parent? = some key ∧ t.isDisposed s = false := by
  simp [childrenOf]

/-- `children_of` knows the visible scopes whose parent is the key. -/
theorem mem_childrenOf_iff (htracks : t.Tracks) {c : Nat} :
    c ∈ t.childrenOf key ↔ ∃ k, t.keyOf c = some k ∧ k.parent? = some key ∧ t.Visible c := by
  rw [mem_childrenOf]
  constructor
  · rintro ⟨k, hk, hparent, hlive⟩
    have hkey := htracks.keyed k c hk
    exact ⟨k, hkey, hparent, hlive, fun x hx => htracks.latest k c x hk (hx.trans hkey)⟩
  · rintro ⟨k, hkey, hparent, hlive, hlast⟩
    obtain ⟨⟨k', s⟩, hs, rfl⟩ := List.mem_map.mp (htracks.tracked k c hkey)
    have hle := hlast s ((htracks.keyed k' s hs).trans hkey.symm)
    have heq : s = c := Nat.le_antisymm hle (htracks.latest k' s c hs hkey)
    exact ⟨k', heq ▸ hs, hparent, hlive⟩

/-- The children of a key stand in the order their keys were first used. -/
theorem pairwise_childrenOf (htracks : t.Tracks) :
    (t.childrenOf key).Pairwise fun c c' => ∃ k k', t.keyOf c = some k ∧ t.keyOf c' = some k' ∧ t.Earlier k k' := by
  rw [childrenOf, List.pairwise_map]
  refine List.Pairwise.filter _ ((List.pairwise_map.mp htracks.inOrder).imp_of_mem ?_)
  intro entry entry' hentry hentry' hearlier
  exact ⟨entry.1, entry'.1, htracks.keyed _ _ hentry, htracks.keyed _ _ hentry', hearlier⟩

/-! ## What the order holds -/

theorem disposalOrder_succ {fuel s : Nat} (hs : t.keyOf s = some key) :
    disposalOrder (fuel + 1) t s = (t.childrenOf key).reverse.flatMap (disposalOrder fuel t) ++ [s] := by
  rw [keyOf, Option.map_eq_some_iff] at hs
  obtain ⟨scope, hscope, rfl⟩ := hs
  rw [disposalOrder, hscope]

theorem found_of_mem_disposalOrder (htracks : t.Tracks) {fuel s x : Nat} (hs : t.keyOf s = some key)
    (hx : x ∈ disposalOrder fuel t s) : t.Found s x := by
  induction fuel generalizing key s with
  | zero => cases hx
  | succ fuel ih =>
    rw [disposalOrder_succ hs] at hx
    rcases List.mem_append.mp hx with hx | hx
    · obtain ⟨c, hc, hx⟩ := List.mem_flatMap.mp hx
      obtain ⟨kc, hkc, hparent, hvisible⟩ := (mem_childrenOf_iff htracks).mp (List.mem_reverse.mp hc)
      have hbelow := ScopeKey.below_of_parent? hparent
      have hlength := ScopeKey.length_of_parent? hparent
      rcases ih hkc hx with rfl | ⟨hvisible', kc', k, hkc', hk, hkbelow, hbetween⟩
      · refine .inr ⟨hvisible, key, kc, hs, hkc, hbelow, fun between hunder hover => ?_⟩
        -- there is no key between a key and its parent
        have hlt := hunder.length_lt
        have hlt' := hover.length_lt
        omega
      · rw [hkc] at hkc'
        cases hkc'
        refine .inr ⟨hvisible', key, k, hs, hk, hkbelow.trans hbelow, fun between hunder hover => ?_⟩
        rcases ScopeKey.eq_or_below hkbelow.suffix hunder.suffix (by have := hover.length_lt; omega) with rfl | hbelow
        · exact ⟨c, hkc, hvisible⟩
        · exact hbetween between hunder hbelow
    · exact .inl (List.mem_singleton.mp hx)

/-- The order holds what the disposal finds, as far as the fuel goes. -/
theorem mem_disposalOrder_iff (htracks : t.Tracks) {fuel s x : Nat} (hs : t.keyOf s = some key)
    (hdeep : t.Deep key fuel) : x ∈ disposalOrder fuel t s ↔ t.Found s x := by
  refine ⟨found_of_mem_disposalOrder htracks hs, fun hfound => ?_⟩
  induction fuel generalizing key s with
  | zero => exact absurd (hdeep s key hs) (Nat.lt_irrefl _)
  | succ fuel ih =>
    rw [disposalOrder_succ hs]
    rcases hfound with rfl | ⟨hvisible, key', k, hs', hk, hbelow, hbetween⟩
    · exact List.mem_append_right _ (List.mem_singleton_self x)
    · rw [hs] at hs'
      cases hs'
      obtain ⟨kc, hparent, hat⟩ := hbelow.child
      have hdeep' : t.Deep kc fuel := by
        intro y ky hy
        have hlt := hdeep y ky hy
        rw [ScopeKey.length_of_parent? hparent]
        omega
      have hmem {c : Nat} (hkc : t.keyOf c = some kc) (hc : t.Visible c) (hx : t.Found c x) :
          x ∈ (t.childrenOf key).reverse.flatMap (disposalOrder fuel t) :=
        List.mem_flatMap.mpr ⟨c, List.mem_reverse.mpr ((mem_childrenOf_iff htracks).mpr ⟨kc, hkc, hparent, hc⟩),
          ih hkc hdeep' hx⟩
      refine List.mem_append_left _ ?_
      rcases hat with rfl | hbelow'
      · exact hmem hk hvisible (.inl rfl)
      · have hover := ScopeKey.below_of_parent? hparent
        obtain ⟨c, hkc, hc⟩ := hbetween kc hbelow' hover
        refine hmem hkc hc (.inr ⟨hvisible, kc, k, hkc, hk, hbelow', fun between hunder hover' => ?_⟩)
        exact hbetween between hunder (hover'.trans hover)

/-- A scope at a key or below it. -/
def AtOrBelow (t : ScopeTree) (s : Nat) (key : ScopeKey) : Prop := ∃ k, t.keyOf s = some k ∧ key.path <:+ k.path

theorem Found.atOrBelow {s x : Nat} (hs : t.keyOf s = some key) (h : t.Found s x) : t.AtOrBelow x key := by
  rcases h with rfl | ⟨-, key', k, hs', hk, hbelow, -⟩
  · exact ⟨key, hs, List.suffix_rfl⟩
  · rw [hs] at hs'
    cases hs'
    exact ⟨k, hk, hbelow.suffix⟩

theorem Found.live {s x : Nat} (hs : t.isDisposed s = false) (h : t.Found s x) : t.isDisposed x = false := by
  rcases h with rfl | ⟨hvisible, -⟩
  · exact hs
  · exact hvisible.1

/-! ## The order -/

/-- A scope at or below a key is not at or below a sibling that was first used
earlier. -/
theorem not_earlier_of_suffix {a b : ScopeKey} {names : List String} (ha : a.path <:+ names) (hb : b.path <:+ names)
    (hlength : a.path.length = b.path.length) : ¬ t.Earlier b a := by
  intro h
  rw [ScopeKey.eq_of_path_suffix ha hb hlength] at h
  exact h.asymm h

theorem length_of_siblings {a b : ScopeKey} (h : a.parent? = b.parent?) : a.path.length = b.path.length := by
  cases hb : b.parent? with
  | some parent => rw [ScopeKey.length_of_parent? (h.trans hb), ScopeKey.length_of_parent? hb]
  | none =>
    rw [hb] at h
    rcases a with ⟨_, _ | _⟩
    · rcases b with ⟨_, _ | _⟩
      · rfl
      · cases hb
    · cases h

/-- Siblings have the same keys above them. -/
theorem above_of_siblings {a b k : ScopeKey} (h : a.parent? = b.parent?) (hbelow : a.Below k) : b.Below k := by
  cases hb : b.parent? with
  | some parent =>
    rw [ScopeKey.Below, ScopeKey.parent?_eq_some.mp hb, ← ScopeKey.parent?_eq_some.mp (h.trans hb)]
    exact hbelow
  | none =>
    rw [hb] at h
    rcases a with ⟨_, _ | _⟩
    · exact absurd hbelow (by simp [ScopeKey.Below, ScopeKey.path])
    · cases h

/-- Of two pairs of siblings above the same two paths, crosswise, neither is the deeper one. -/
theorem not_crossed {a b c d : ScopeKey} {names names' : List String} (hab : a.parent? = b.parent?)
    (hcd : c.parent? = d.parent?) (ha : a.path <:+ names) (hb : b.path <:+ names') (hc : c.path <:+ names')
    (hd : d.path <:+ names) (hearlier : t.Earlier b a) : ¬ a.path.length < d.path.length := by
  intro hlt
  rcases ScopeKey.eq_or_below ha hd (Nat.le_of_lt hlt) with rfl | hbelow
  · exact Nat.lt_irrefl _ hlt
  · have hover := (above_of_siblings hcd.symm hbelow).suffix.trans hc
    exact not_earlier_of_suffix hover hb (length_of_siblings hab) hearlier

theorem Precedes.asymm {x y : Nat} (h : t.Precedes x y) : ¬ t.Precedes y x := by
  rintro ⟨ky, kx, hy, hx, h'⟩
  obtain ⟨kx', ky', hx', hy', h⟩ := h
  rw [hx] at hx'
  cases hx'
  rw [hy] at hy'
  cases hy'
  rcases h with hbelow | ⟨a, b, hab, ha, hb, hearlier⟩
  · rcases h' with hbelow' | ⟨c, d, hcd, hc, hd, hearlier'⟩
    · exact ScopeKey.not_below_self kx (hbelow.trans hbelow')
    · exact not_earlier_of_suffix (hc.trans hbelow.suffix) hd (length_of_siblings hcd) hearlier'
  · rcases h' with hbelow' | ⟨c, d, hcd, hc, hd, hearlier'⟩
    · exact not_earlier_of_suffix (ha.trans hbelow'.suffix) hb (length_of_siblings hab) hearlier
    · have hle := not_crossed hab hcd ha hb hc hd hearlier
      have hle' := not_crossed hcd hab hc hd ha hb hearlier'
      have hab' := length_of_siblings hab
      have hcd' := length_of_siblings hcd
      have heq : a = d := ScopeKey.eq_of_path_suffix ha hd (by omega)
      have heq' : b = c := ScopeKey.eq_of_path_suffix hb hc (by omega)
      subst heq heq'
      exact hearlier.asymm hearlier'

theorem pairwise_disposalOrder (htracks : t.Tracks) (fuel : Nat) {s : Nat} (hs : t.keyOf s = some key) :
    (disposalOrder fuel t s).Pairwise t.Precedes := by
  induction fuel generalizing key s with
  | zero => exact List.Pairwise.nil
  | succ fuel ih =>
    rw [disposalOrder_succ hs, List.pairwise_append, List.pairwise_flatMap, List.pairwise_reverse]
    have hchild {c : Nat} (hc : c ∈ t.childrenOf key) : ∃ k, t.keyOf c = some k ∧ k.parent? = some key := by
      obtain ⟨k, hk, hparent, -⟩ := (mem_childrenOf_iff htracks).mp hc
      exact ⟨k, hk, hparent⟩
    refine ⟨⟨fun c hc => ?_, ?_⟩, List.pairwise_singleton .., fun x hx y hy => ?_⟩
    · obtain ⟨k, hk, -⟩ := hchild (List.mem_reverse.mp hc)
      exact ih hk
    · refine (pairwise_childrenOf htracks).imp_of_mem fun hc hc' hearlier x hx y hy => ?_
      obtain ⟨k, k', hk, hk', hearlier⟩ := hearlier
      obtain ⟨kx, hkx, hxsuffix⟩ := (found_of_mem_disposalOrder htracks hk' hx).atOrBelow hk'
      obtain ⟨ky, hky, hysuffix⟩ := (found_of_mem_disposalOrder htracks hk hy).atOrBelow hk
      obtain ⟨k₁, hk₁, hparent⟩ := hchild hc
      obtain ⟨k₂, hk₂, hparent'⟩ := hchild hc'
      rw [hk] at hk₁
      rw [hk'] at hk₂
      cases hk₁
      cases hk₂
      exact ⟨kx, ky, hkx, hky, .inr ⟨k', k, hparent'.trans hparent.symm, hxsuffix, hysuffix, hearlier⟩⟩
    · obtain rfl := List.mem_singleton.mp hy
      obtain ⟨c, hc, hx⟩ := List.mem_flatMap.mp hx
      obtain ⟨k, hk, hparent⟩ := hchild (List.mem_reverse.mp hc)
      obtain ⟨kx, hkx, hsuffix⟩ := (found_of_mem_disposalOrder htracks hk hx).atOrBelow hk
      exact ⟨kx, key, hkx, hs, .inl ((ScopeKey.below_of_parent? hparent).of_suffix hsuffix)⟩

theorem nodup_disposalOrder (htracks : t.Tracks) (fuel : Nat) {s : Nat} (hs : t.keyOf s = some key) :
    (disposalOrder fuel t s).Nodup := by
  refine (pairwise_disposalOrder htracks fuel hs).imp ?_
  rintro x _ h rfl
  exact h.asymm h

end ScopeTree

end MinionAgent
