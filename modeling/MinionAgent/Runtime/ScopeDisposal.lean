import MinionAgent.Runtime.DisposalOrder

/-!
# MinionAgent.Runtime.ScopeDisposal

What `Scope.dispose` disposes of.

It runs through its `disposalOrder`, and an error of a scope's effects ends it
(`Disposables.reached` is how far it goes).

* `dispose_spec` — `dispose` of a live scope disposes of the lists of its order;
* `sound_run` — what every run of a tree keeps;
* `dispose_complete_iff` — the disposal is complete exactly when every live
  effect it should run is of a scope it finds, and nothing before it raises.
-/

namespace MinionAgent

/-! ## Lists disposed one after another -/

namespace Disposables

/-- `dispose_all` of one list after another, until one raises. -/
def runOrder (raises : Nat → Bool) : Disposables → List Nat → Disposables × Bool
  | d, [] => (d, false)
  | d, list :: rest =>
    match d.disposeAll raises list with
    | (d', false) => runOrder raises d' rest
    | (d', true) => (d', true)

/-- The lists up to the first one with a live effect that raises. -/
def reached (raises : Nat → Bool) (d : Disposables) : List Nat → List Nat
  | [] => []
  | list :: rest => list :: if (d.liveOf list).any raises then [] else reached raises d rest

theorem runOrder_append (raises : Nat → Bool) (d : Disposables) (xs ys : List Nat) :
    d.runOrder raises (xs ++ ys) =
      match d.runOrder raises xs with
      | (d', false) => d'.runOrder raises ys
      | (d', true) => (d', true) := by
  induction xs generalizing d with
  | nil => rfl
  | cons x xs ih =>
    simp only [List.cons_append, runOrder]
    split
    · exact ih _
    · rfl

variable {d : Disposables} {raises : Nat → Bool}

theorem mem_of_mem_reached {lists : List Nat} {list : Nat} (h : list ∈ d.reached raises lists) : list ∈ lists := by
  induction lists with
  | nil => exact h
  | cons l rest ih =>
    rw [reached] at h
    rcases List.mem_cons.mp h with rfl | h
    · exact List.mem_cons_self ..
    · split at h
      · cases h
      · exact List.mem_cons_of_mem _ (ih h)

theorem reached_congr {d' : Disposables} {lists : List Nat} (h : ∀ list ∈ lists, d'.liveOf list = d.liveOf list) :
    d'.reached raises lists = d.reached raises lists := by
  induction lists with
  | nil => rfl
  | cons l rest ih =>
    rw [reached, reached, h l (List.mem_cons_self ..), ih fun x hx => h x (List.mem_cons_of_mem _ hx)]

/-- In an order, a list is reached if nothing before it raises. -/
theorem mem_reached_iff {R : Nat → Nat → Prop} (hasymm : ∀ {x y}, R x y → ¬ R y x) {lists : List Nat}
    (h : lists.Pairwise R) {list : Nat} :
    list ∈ d.reached raises lists ↔
      list ∈ lists ∧ ∀ before ∈ lists, R before list → (d.liveOf before).any raises = false := by
  induction lists with
  | nil => simp [reached]
  | cons l rest ih =>
    obtain ⟨hfirst, hrest⟩ := List.pairwise_cons.mp h
    rw [reached, List.mem_cons, List.mem_cons]
    by_cases heq : list = l
    · subst heq
      refine iff_of_true (.inl rfl) ⟨.inl rfl, fun before hbefore hR => absurd hR ?_⟩
      rcases List.mem_cons.mp hbefore with rfl | hbefore
      · exact fun hself => hasymm hself hself
      · exact hasymm (hfirst before hbefore)
    · simp only [heq, false_or, List.forall_mem_cons]
      split
      · next hraises =>
        refine iff_of_false List.not_mem_nil fun ⟨hmem, hfree, _⟩ => ?_
        exact Bool.false_ne_true ((hfree (hfirst list hmem)).symm.trans hraises)
      · next hquiet =>
        rw [ih hrest]
        exact and_congr_right fun _ => ⟨fun hfree => ⟨fun _ => by simpa using hquiet, hfree⟩, And.right⟩

/-- The live effects of a list are not touched by the disposal of another. -/
theorem Disposed.liveOf {d' : Disposables} {list list' : Nat} (h : Disposed raises d list d') (hsound : d.Sound)
    (hidle : (d.lists list').progress = .idle) (hne : list' ≠ list) : d'.liveOf list' = d.liveOf list' := by
  rw [Disposables.liveOf, Disposables.liveOf, h.other list' hne]
  refine liveBelow_congr (by rw [h.other list' hne]) fun slot e _ hslot => ?_
  have he := hsound.holds list' slot e hslot
  have hnot : e ∉ d.liveOf list := by
    intro hmem
    rw [Disposables.liveOf, mem_liveBelow] at hmem
    obtain ⟨-, slot', -, hslot'⟩ := hmem
    have heq := he.symm.trans (hsound.holds list slot' e hslot')
    cases heq
    exact hne rfl
  rw [isLive, isLive, h.effects, settled, settled, h.started, List.any_append, List.any_map]
  have hany : ((d.liveOf list).any ((fun started => started.1 == e) ∘ fun x => (x, true))) = false := by
    rw [List.any_eq_false]
    intro x hx
    simp only [Function.comp_apply, beq_iff_eq]
    rintro rfl
    exact hnot hx
  rw [hany, Bool.or_false]

/-- What a sequence of disposals starts, in order. -/
theorem Sound.runOrder {lists : List Nat} (raises : Nat → Bool) (h : d.Sound) (hnodup : lists.Nodup)
    (hidle : ∀ list ∈ lists, (d.lists list).progress = .idle) :
    (d.runOrder raises lists).1.effects = d.effects ∧
      (d.runOrder raises lists).1.started
        = d.started ++ ((d.reached raises lists).flatMap d.liveOf).map fun e => (e, true) := by
  induction lists generalizing d with
  | nil => simp [Disposables.runOrder, reached]
  | cons list rest ih =>
    obtain ⟨hnotin, hnodup⟩ := List.nodup_cons.mp hnodup
    obtain ⟨hdisposed, hraised⟩ := h.disposeAll raises (hidle list (List.mem_cons_self ..))
    have hlive (l : Nat) (hl : l ∈ rest) : (d.disposeAll raises list).1.liveOf l = d.liveOf l := by
      refine hdisposed.liveOf h (hidle l (List.mem_cons_of_mem _ hl)) ?_
      rintro rfl
      exact hnotin hl
    rw [Disposables.runOrder, reached, ← hraised]
    cases hresult : d.disposeAll raises list with
    | mk d' raised =>
      rw [hresult] at hdisposed hlive
      cases raised with
      | true =>
        refine ⟨hdisposed.effects, ?_⟩
        simpa using hdisposed.started
      | false =>
        obtain ⟨heffects, hstarted⟩ := ih hdisposed.sound hnodup fun l hl => by
          rw [hdisposed.other l (by rintro rfl; exact hnotin hl)]
          exact hidle l (List.mem_cons_of_mem _ hl)
        refine ⟨heffects.trans hdisposed.effects, ?_⟩
        rw [hstarted, reached_congr hlive, hdisposed.started]
        simp only [Bool.false_eq_true, if_false, List.flatMap_cons, List.map_append, List.append_assoc]
        congr 3
        exact List.flatMap_congr fun l hl => hlive l (mem_of_mem_reached hl)

end Disposables

namespace ScopeTree

/-! ## What `dispose` does -/

/-- Two trees with the same scopes, of which those below a key are disposed in
both or in none. -/
structure AgreesBelow (key : ScopeKey) (t t' : ScopeTree) : Prop where
  table : t'.table = t.table
  keys : ∀ s, t'.keyOf s = t.keyOf s
  flags : ∀ s k, t.keyOf s = some k → k.Below key → t'.isDisposed s = t.isDisposed s

variable {t t' : ScopeTree} {key : ScopeKey}

theorem childrenOf_congr (htracks : t.Tracks) (h : AgreesBelow key t t') : t'.childrenOf key = t.childrenOf key := by
  rw [childrenOf, childrenOf, h.table]
  congr 1
  refine List.filter_congr fun entry hentry => ?_
  by_cases hparent : entry.1.parent? = some key
  · rw [h.flags entry.2 entry.1 (htracks.keyed entry.1 entry.2 hentry) (ScopeKey.below_of_parent? hparent)]
  · have hne : (entry.1.parent? == some key) = false := by simpa using hparent
    rw [hne, Bool.false_and, Bool.false_and]

theorem nodup_childrenOf (htracks : t.Tracks) : (t.childrenOf key).Nodup := by
  refine (pairwise_childrenOf htracks).imp ?_
  rintro c _ ⟨k, k', hk, hk', hearlier⟩ rfl
  rw [hk] at hk'
  cases hk'
  exact hearlier.asymm hearlier

/-- Two children of one key have different keys, so that nothing is below both. -/
theorem eq_of_atOrBelow (htracks : t.Tracks) {c c' x : Nat} (hc : c ∈ t.childrenOf key) (hc' : c' ∈ t.childrenOf key)
    {k k' : ScopeKey} (hk : t.keyOf c = some k) (hk' : t.keyOf c' = some k') (hx : t.AtOrBelow x k)
    (hx' : t.AtOrBelow x k') : c = c' := by
  obtain ⟨k₁, hk₁, hparent, hvisible⟩ := (mem_childrenOf_iff htracks).mp hc
  obtain ⟨k₁', hk₁', hparent', hvisible'⟩ := (mem_childrenOf_iff htracks).mp hc'
  rw [hk] at hk₁
  rw [hk'] at hk₁'
  cases hk₁
  cases hk₁'
  obtain ⟨kx, hkx, hsuffix⟩ := hx
  obtain ⟨kx', hkx', hsuffix'⟩ := hx'
  rw [hkx] at hkx'
  cases hkx'
  have heq := ScopeKey.eq_of_path_suffix hsuffix hsuffix' (length_of_siblings (hparent.trans hparent'.symm))
  subst heq
  exact Nat.le_antisymm (hvisible'.2 c (hk.trans hk'.symm)) (hvisible.2 c' (hk'.trans hk.symm))

/-- What the disposal of a scope leaves and does: the flags change at the
scope's key and below it only, and the lists are disposed in that order. -/
structure Disposes (raises : Nat → Bool) (t : ScopeTree) (AtKeys : Nat → Prop) (order : List Nat) (t' : ScopeTree)
    (raised : Bool) : Prop where
  table : t'.table = t.table
  keys : ∀ s, t'.keyOf s = t.keyOf s
  flags : ∀ s, ¬ AtKeys s → t'.isDisposed s = t.isDisposed s
  run : (t'.disposables, raised) = t.disposables.runOrder raises order

theorem keyOf_mark (s x : Nat) : (t.mark s).keyOf x = t.keyOf x := by
  rw [keyOf, keyOf, mark, List.getElem?_modify]
  cases t.minted[x]? with
  | none => rfl
  | some scope =>
    by_cases h : s = x
    · simp [h]
    · simp [h]

theorem isDisposed_mark {s x : Nat} (h : x ≠ s) : (t.mark s).isDisposed x = t.isDisposed x := by
  rw [isDisposed, isDisposed, mark, List.getElem?_modify]
  cases t.minted[x]? with
  | none => rfl
  | some scope => simp [Ne.symm h]

/-- Children are disposed one after another: what the first ones do does not
touch the others. -/
theorem disposeEach_spec {raises : Nat → Bool} {fuel : Nat} (htracks : t.Tracks)
    (hone : ∀ (k : ScopeKey) (t₁ : ScopeTree) (c : Nat), AgreesBelow k t t₁ → t.keyOf c = some k →
      k.parent? = some key →
      t.isDisposed c = false → t₁.isDisposed c = false →
      ∃ t₂ raised, dispose raises fuel t₁ c = some (t₂, raised) ∧
        Disposes raises t₁ (fun x => t.AtOrBelow x k) (disposalOrder fuel t c) t₂ raised)
    (cs : List Nat) (hnodup : cs.Nodup) (hcs : ∀ c ∈ cs, c ∈ t.childrenOf key) (t₁ : ScopeTree)
    (htable : t₁.table = t.table) (hkeys : ∀ s, t₁.keyOf s = t.keyOf s)
    (hflags : ∀ c ∈ cs, ∀ k x, t.keyOf c = some k → t.AtOrBelow x k → t₁.isDisposed x = t.isDisposed x) :
    ∃ t₂ raised, disposeEach (dispose raises fuel) t₁ cs = some (t₂, raised) ∧
      Disposes raises t₁ (fun x => ∃ c ∈ cs, ∃ k, t.keyOf c = some k ∧ t.AtOrBelow x k)
        (cs.flatMap (disposalOrder fuel t)) t₂ raised := by
  induction cs generalizing t₁ with
  | nil => exact ⟨t₁, false, rfl, rfl, fun _ => rfl, fun _ _ => rfl, rfl⟩
  | cons c cs ih =>
    obtain ⟨hnotin, hnodup⟩ := List.nodup_cons.mp hnodup
    have hc := hcs c (List.mem_cons_self ..)
    obtain ⟨k, hk, hparent, hlive⟩ := mem_childrenOf.mp hc
    have hkey := htracks.keyed k c hk
    have hself : t.AtOrBelow c k := ⟨k, hkey, List.suffix_rfl⟩
    have hagree : AgreesBelow k t t₁ := by
      refine ⟨htable, hkeys, fun x kx hx hbelow => ?_⟩
      exact hflags c (List.mem_cons_self ..) k x hkey ⟨kx, hx, hbelow.suffix⟩
    obtain ⟨t₂, raised, hdispose, hspec⟩ := hone k t₁ c hagree hkey hparent hlive
      ((hflags c (List.mem_cons_self ..) k c hkey hself).trans hlive)
    rw [disposeEach, hdispose]
    cases raised with
    | true =>
      refine ⟨t₂, true, rfl, hspec.table, hspec.keys, fun x hx => hspec.flags x fun hat => ?_, ?_⟩
      · exact hx ⟨c, List.mem_cons_self .., k, hkey, hat⟩
      · rw [List.flatMap_cons, Disposables.runOrder_append, ← hspec.run]
    | false =>
      have hflags' : ∀ c' ∈ cs, ∀ k' x, t.keyOf c' = some k' → t.AtOrBelow x k' → t₂.isDisposed x = t.isDisposed x := by
        intro c' hc' k' x hk' hx
        rw [hspec.flags x fun hat => ?_]
        · exact hflags c' (List.mem_cons_of_mem _ hc') k' x hk' hx
        · have heq := eq_of_atOrBelow htracks hc (hcs c' (List.mem_cons_of_mem _ hc')) hkey hk' hat hx
          exact hnotin (heq ▸ hc')
      obtain ⟨t₃, raised, hrest, hspec'⟩ := ih hnodup (fun x hx => hcs x (List.mem_cons_of_mem _ hx)) t₂
        (hspec.table.trans htable) (fun x => (hspec.keys x).trans (hkeys x)) hflags'
      refine ⟨t₃, raised, hrest, hspec'.table.trans hspec.table, fun x => (hspec'.keys x).trans (hspec.keys x), ?_, ?_⟩
      · intro x hx
        rw [hspec'.flags x fun hat => ?_, hspec.flags x fun hat => ?_]
        · exact hx ⟨c, List.mem_cons_self .., k, hkey, hat⟩
        · obtain ⟨c', hc', hat⟩ := hat
          exact hx ⟨c', List.mem_cons_of_mem _ hc', hat⟩
      · rw [List.flatMap_cons, Disposables.runOrder_append, ← hspec.run]
        exact hspec'.run

/-- `dispose` of a live scope runs through its order. -/
theorem dispose_spec (raises : Nat → Bool) (htracks : t.Tracks) {fuel s : Nat} {t₁ : ScopeTree}
    (hagree : AgreesBelow key t t₁) (hs : t.keyOf s = some key) (hlive : t₁.isDisposed s = false)
    (hdeep : t.Deep key fuel) :
    ∃ t₂ raised, dispose raises fuel t₁ s = some (t₂, raised) ∧
      Disposes raises t₁ (fun x => t.AtOrBelow x key) (disposalOrder fuel t s) t₂ raised := by
  induction fuel generalizing key s t₁ with
  | zero =>
    have hlt := hdeep s key hs
    omega
  | succ fuel ih =>
    have hscope₁ := (hagree.keys s).trans hs
    rw [keyOf, Option.map_eq_some_iff] at hscope₁
    obtain ⟨scope₁, hscope₁, hkey₁⟩ := hscope₁
    have hflag : scope₁.disposed = false := by simpa [isDisposed, hscope₁] using hlive
    have hmark : AgreesBelow key t (t₁.mark s) := by
      refine ⟨hagree.table, fun x => (keyOf_mark s x).trans (hagree.keys x), fun x k hx hbelow => ?_⟩
      have hne : x ≠ s := by
        rintro rfl
        rw [hs] at hx
        cases hx
        exact ScopeKey.not_below_self key hbelow
      rw [isDisposed_mark hne]
      exact hagree.flags x k hx hbelow
    have hone : ∀ (k : ScopeKey) (t₁ : ScopeTree) (c : Nat), AgreesBelow k t t₁ → t.keyOf c = some k →
        k.parent? = some key → t.isDisposed c = false → t₁.isDisposed c = false →
        ∃ t₂ raised, dispose raises fuel t₁ c = some (t₂, raised) ∧
          Disposes raises t₁ (fun x => t.AtOrBelow x k) (disposalOrder fuel t c) t₂ raised := by
      intro k t₁ c hagree hc hparent _ hlive
      refine ih hagree hc hlive fun x kx hx => ?_
      have hlt := hdeep x kx hx
      have hlength : k.path.length = key.path.length + 1 := by
        rw [ScopeKey.path, List.length_cons, ScopeKey.parent?_eq_some.mp hparent]
      omega
    have hbelow {c k x} (hc : c ∈ (t.childrenOf key).reverse) (hk : t.keyOf c = some k) (hx : t.AtOrBelow x k) :
        ∃ kx, t.keyOf x = some kx ∧ kx.Below key := by
      obtain ⟨k', hmem, hparent, -⟩ := mem_childrenOf.mp (List.mem_reverse.mp hc)
      have heq : k' = k := Option.some.inj ((htracks.keyed k' c hmem).symm.trans hk)
      subst heq
      obtain ⟨kx, hkx, hsuffix⟩ := hx
      exact ⟨kx, hkx, (ScopeKey.below_of_parent? hparent).of_suffix hsuffix⟩
    obtain ⟨t₂, raised, heach, hspec⟩ := disposeEach_spec htracks hone (t.childrenOf key).reverse
      (List.nodup_reverse.mpr (nodup_childrenOf htracks)) (fun c hc => List.mem_reverse.mp hc) (t₁.mark s)
      hmark.table hmark.keys fun c hc k x hk hx => by
        obtain ⟨kx, hkx, hkey⟩ := hbelow hc hk hx
        exact hmark.flags x kx hkx hkey
    have hflags {x} (hx : ¬ t.AtOrBelow x key) : t₂.isDisposed x = t₁.isDisposed x := by
      have hne : x ≠ s := by
        rintro rfl
        exact hx ⟨key, hs, List.suffix_rfl⟩
      rw [hspec.flags x fun hat => ?_, isDisposed_mark hne]
      obtain ⟨c, hc, k, hk, hat⟩ := hat
      obtain ⟨kx, hkx, hkey⟩ := hbelow hc hk hat
      exact hx ⟨kx, hkx, hkey.suffix⟩
    have hkeys (x : Nat) : t₂.keyOf x = t₁.keyOf x := (hspec.keys x).trans (keyOf_mark s x)
    rw [dispose, hscope₁]
    simp only [hflag, hkey₁, Bool.false_eq_true, if_false]
    rw [childrenOf_congr htracks hmark, heach, disposalOrder_succ hs]
    cases raised with
    | true =>
      refine ⟨t₂, true, rfl, hspec.table, hkeys, fun x => hflags, ?_⟩
      rw [Disposables.runOrder_append]
      have hrun : (t₂.disposables, true) = t₁.disposables.runOrder raises _ := hspec.run
      rw [← hrun]
    | false =>
      refine ⟨_, _, rfl, hspec.table, hkeys, fun x => hflags, ?_⟩
      rw [Disposables.runOrder_append]
      have hrun : (t₂.disposables, false) = t₁.disposables.runOrder raises _ := hspec.run
      rw [← hrun]
      show ((t₂.disposables.disposeAll raises s).1, (t₂.disposables.disposeAll raises s).2) = _
      cases hresult : t₂.disposables.disposeAll raises s with
      | mk d' raised => cases raised <;> simp [Disposables.runOrder, hresult]

/-! ## Runs -/

/-- What is done with the scopes of a tree. -/
inductive Operation
  | mint (key : ScopeKey)
  | effect (scope : Nat)
  | handle (effect : Nat)
  | dispose (scope : Nat)

/-- Fuel for every scope of a tree. -/
def depth (t : ScopeTree) : Nat := (t.minted.map fun scope => scope.key.path.length).foldr max 0 + 1

def step (raises : Nat → Bool) (t : ScopeTree) : Operation → ScopeTree
  | .mint key => t.mint key
  | .effect s => t.effect s
  | .handle e => t.handle e
  | .dispose s => ((dispose raises t.depth t s).map Prod.fst).getD t

/-- The tree after a sequence of operations. -/
def run (raises : Nat → Bool) (operations : List Operation) : ScopeTree := operations.foldl (step raises) {}

theorem deep_depth (key : ScopeKey) : t.Deep key t.depth := by
  intro s k hk
  rw [keyOf, Option.map_eq_some_iff] at hk
  obtain ⟨scope, hscope, rfl⟩ := hk
  have hle {lengths : List Nat} {n : Nat} (h : n ∈ lengths) : n ≤ lengths.foldr max 0 := by
    induction lengths with
    | nil => cases h
    | cons m lengths ih =>
      rw [List.foldr_cons]
      rcases List.mem_cons.mp h with rfl | h
      · exact Nat.le_max_left ..
      · exact (ih h).trans (Nat.le_max_right ..)
  have hmem := hle (List.mem_map_of_mem (f := fun scope => scope.key.path.length) (List.mem_of_getElem? hscope))
  rw [depth]
  omega

/-- What every run keeps: the list of a live scope is not disposed. -/
structure Sound (t : ScopeTree) : Prop where
  disposables : t.disposables.Sound
  count : t.disposables.count = t.minted.length
  tracks : t.Tracks
  idle : ∀ s, t.isDisposed s = false → (t.disposables.lists s).progress = .idle

theorem sound_initial : Sound {} where
  disposables := by constructor <;> simp [Disposables.settled, Disposables.unwound]
  count := rfl
  tracks := by constructor <;> simp [keyOf]
  idle := by simp

theorem keys_setEntry (table : List (ScopeKey × Nat)) (key : ScopeKey) (n : Nat) :
    (setEntry table key n).map Prod.fst =
      if key ∈ table.map Prod.fst then table.map Prod.fst else table.map Prod.fst ++ [key] := by
  induction table with
  | nil => rfl
  | cons entry rest ih =>
    rw [setEntry]
    by_cases heq : entry.1 = key
    · simp [heq]
    · rw [if_neg heq, List.map_cons, ih, List.map_cons]
      simp only [List.mem_cons, Ne.symm heq, false_or]
      split <;> rfl

theorem mem_setEntry {table : List (ScopeKey × Nat)} (hkeys : (table.map Prod.fst).Nodup) {k key : ScopeKey} {s n : Nat}
    (h : (k, s) ∈ setEntry table key n) : (k, s) ∈ table ∧ k ≠ key ∨ k = key ∧ s = n := by
  induction table with
  | nil => simpa [setEntry] using h
  | cons entry rest ih =>
    obtain ⟨hnotin, hnodup⟩ := List.nodup_cons.mp hkeys
    rw [setEntry] at h
    split at h
    · next heq =>
      rcases List.mem_cons.mp h with hnew | hold
      · cases hnew
        exact .inr ⟨rfl, rfl⟩
      · refine .inl ⟨List.mem_cons_of_mem _ hold, ?_⟩
        rintro rfl
        exact hnotin (heq ▸ List.mem_map_of_mem hold)
    · next hne =>
      rcases List.mem_cons.mp h with rfl | h
      · exact .inl ⟨List.mem_cons_self .., hne⟩
      · exact (ih hnodup h).imp (fun hold => ⟨List.mem_cons_of_mem _ hold.1, hold.2⟩) id

theorem keyOf_lt {s : Nat} {k : ScopeKey} (h : t.keyOf s = some k) : s < t.minted.length := by
  rw [keyOf, Option.map_eq_some_iff] at h
  obtain ⟨scope, hscope, -⟩ := h
  exact (List.getElem?_eq_some_iff.mp hscope).1

theorem keyOf_mint {key k : ScopeKey} {s : Nat} :
    (t.mint key).keyOf s = some k ↔ t.keyOf s = some k ∨ s = t.minted.length ∧ k = key := by
  rw [keyOf, ScopeTree.mint]
  rcases Nat.lt_trichotomy s t.minted.length with hlt | rfl | hgt
  · rw [List.getElem?_append_left hlt, ← keyOf]
    simp [Nat.ne_of_lt hlt]
  · simp [keyOf, eq_comm]
  · have hnew : (t.minted ++ [({ key } : MintedScope)])[s]? = none := by
      rw [List.getElem?_eq_none_iff, List.length_append]
      exact hgt
    simp [keyOf, hnew, List.getElem?_eq_none (Nat.le_of_lt hgt), Nat.ne_of_gt hgt]

theorem Earlier.mint {k k' : ScopeKey} (h : t.Earlier k k') (key : ScopeKey) : (t.mint key).Earlier k k' := by
  obtain ⟨i, hi, hbefore⟩ := h
  refine ⟨i, keyOf_mint.mpr (.inl hi), fun j hj => ?_⟩
  rcases keyOf_mint.mp hj with hj | ⟨rfl, -⟩
  · exact hbefore j hj
  · exact keyOf_lt hi

/-- A key first used is last in the table, and its scope the last one. -/
theorem Tracks.mint (h : t.Tracks) (key : ScopeKey) : (t.mint key).Tracks := by
  refine ⟨fun k s hks => ?_, fun k s x hks hx => ?_, fun k s hs => ?_, ?_⟩
  · rcases mem_setEntry h.keys hks with ⟨hold, -⟩ | ⟨rfl, rfl⟩
    · exact keyOf_mint.mpr (.inl (h.keyed k s hold))
    · exact keyOf_mint.mpr (.inr ⟨rfl, rfl⟩)
  · rcases mem_setEntry h.keys hks with ⟨hold, hne⟩ | ⟨rfl, rfl⟩
    · rcases keyOf_mint.mp hx with hx | ⟨-, hkey⟩
      · exact h.latest k s x hold hx
      · exact absurd hkey hne
    · rcases keyOf_mint.mp hx with hx | ⟨rfl, -⟩
      · exact Nat.le_of_lt (keyOf_lt hx)
      · exact Nat.le_refl _
  · rw [ScopeTree.mint, keys_setEntry]
    rcases keyOf_mint.mp hs with hs | ⟨-, rfl⟩
    · have hold := h.tracked k s hs
      split
      · exact hold
      · exact List.mem_append_left _ hold
    · split
      · assumption
      · exact List.mem_append_right _ (List.mem_singleton_self _)
  · have hold := h.inOrder.imp fun hearlier => Earlier.mint hearlier key
    rw [show (t.mint key).table = setEntry t.table key t.minted.length from rfl, keys_setEntry]
    split
    · exact hold
    · next hnew =>
      refine List.pairwise_append.mpr ⟨hold, List.pairwise_singleton .., fun k hk k' hk' => ?_⟩
      obtain ⟨⟨k, i⟩, hki, rfl⟩ := List.mem_map.mp hk
      obtain rfl := List.mem_singleton.mp hk'
      refine ⟨i, keyOf_mint.mpr (.inl (h.keyed k i hki)), fun j hj => ?_⟩
      rcases keyOf_mint.mp hj with hj | ⟨rfl, -⟩
      · exact absurd (h.tracked k' j hj) hnew
      · exact keyOf_lt (h.keyed k i hki)

/-- The table and the keys are all that tracking is about. -/
theorem Tracks.congr (h : t.Tracks) (htable : t'.table = t.table) (hkeys : ∀ s, t'.keyOf s = t.keyOf s) :
    t'.Tracks := by
  obtain ⟨hkeyed, hlatest, htracked, hinOrder⟩ := h
  refine ⟨?_, ?_, ?_, ?_⟩
  · simpa only [htable, hkeys] using hkeyed
  · simpa only [htable, hkeys] using hlatest
  · simpa only [htable, hkeys] using htracked
  · rw [htable]
    exact hinOrder.imp fun hearlier => by simpa only [Earlier, hkeys] using hearlier

theorem Sound.mint (h : Sound t) (key : ScopeKey) : Sound (t.mint key) := by
  refine ⟨h.disposables.fresh, ?_, h.tracks.mint key, fun s hs => ?_⟩
  · simp [ScopeTree.mint, Disposables.fresh, h.count]
  · rcases Nat.lt_trichotomy s t.minted.length with hlt | rfl | hgt
    · have hold : (t.mint key).minted[s]? = t.minted[s]? := by rw [ScopeTree.mint, List.getElem?_append_left hlt]
      rw [isDisposed, hold] at hs
      show ((t.disposables.fresh).lists s).progress = .idle
      rw [Disposables.lists_fresh_of_lt (by rw [h.count]; exact hlt)]
      exact h.idle s hs
    · show ((t.disposables.fresh).lists t.minted.length).progress = .idle
      rw [← h.count, Disposables.lists_fresh_count]
    · have hnone : (t.mint key).minted[s]? = none := by
        rw [List.getElem?_eq_none]
        simp only [ScopeTree.mint, List.length_append, List.length_singleton]
        omega
      rw [isDisposed, hnone] at hs
      cases hs

theorem Sound.effect (h : Sound t) (s : Nat) : Sound (t.effect s) := by
  rw [ScopeTree.effect]
  split
  · next haccepted =>
    refine ⟨h.disposables.push (by rw [h.count]; exact haccepted.1) ?_, h.count,
      h.tracks.congr rfl fun _ => rfl, fun x hx => ?_⟩
    · rintro ⟨raised, hraised⟩
      simp [DisposableList.disposed, hraised] at haccepted
    · rw [Disposables.progress_push]
      exact h.idle x hx
  · exact h

theorem Sound.handle (h : Sound t) (e : Nat) : Sound (t.handle e) := by
  rw [ScopeTree.handle]
  cases hhandle : t.disposables.handle? e with
  | none => exact h
  | some d' =>
    obtain ⟨-, hcount, hprogress, -⟩ := Disposables.handle?_frame hhandle
    refine ⟨h.disposables.handle hhandle, hcount.trans h.count, h.tracks.congr rfl fun _ => rfl, fun x hx => ?_⟩
    rw [Option.getD_some, hprogress]
    exact h.idle x hx

theorem Sound.mark (h : Sound t) (s : Nat) : Sound (t.mark s) := by
  refine ⟨h.disposables, by simp [ScopeTree.mark, h.count], h.tracks.congr rfl (keyOf_mark s), fun x hx => ?_⟩
  by_cases heq : x = s
  · subst heq
    rw [isDisposed, ScopeTree.mark, List.getElem?_modify_eq] at hx
    cases hscope : t.minted[x]? <;> simp [hscope] at hx
  · rw [isDisposed_mark heq] at hx
    exact h.idle x hx

/-- The list of a scope is disposed after its flag was set. -/
theorem Sound.disposeOwn (h : Sound t) (raises : Nat → Bool) {s : Nat} (hflag : t.isDisposed s = true) :
    Sound (t.disposeOwn raises s).1 := by
  rw [ScopeTree.disposeOwn]
  by_cases hidle : (t.disposables.lists s).progress = .idle
  · obtain ⟨hdisposed, -⟩ := h.disposables.disposeAll raises hidle
    refine ⟨hdisposed.sound, hdisposed.count.trans h.count, h.tracks.congr rfl fun _ => rfl, fun x hx => ?_⟩
    have hne : x ≠ s := by
      rintro rfl
      exact Bool.false_ne_true (hx.symm.trans hflag)
    exact (congrArg DisposableList.progress (hdisposed.other x hne)).trans (h.idle x hx)
  · have hdisposed : (t.disposables.lists s).disposed = true := by simpa [DisposableList.disposed] using hidle
    rw [Disposables.disposeAll, if_pos hdisposed]
    exact h

/-- A tree that is kept, with no flag taken back. -/
def Grows (t t' : ScopeTree) : Prop := Sound t' ∧ ∀ s, t.isDisposed s = true → t'.isDisposed s = true

theorem sound_disposeEach {disposeOne : ScopeTree → Nat → Option (ScopeTree × Bool)}
    (hone : ∀ t s t' raised, Sound t → disposeOne t s = some (t', raised) → Grows t t') (h : Sound t) {cs : List Nat}
    {raised : Bool} (heach : disposeEach disposeOne t cs = some (t', raised)) : Grows t t' := by
  induction cs generalizing t with
  | nil =>
    cases heach
    exact ⟨h, fun _ => id⟩
  | cons c cs ih =>
    rw [disposeEach] at heach
    split at heach
    · next t₁ hfirst =>
      obtain ⟨hsound, hgrows⟩ := hone t c t₁ false h hfirst
      obtain ⟨hsound', hgrows'⟩ := ih hsound heach
      exact ⟨hsound', fun s hs => hgrows' s (hgrows s hs)⟩
    · next t₁ hfirst =>
      cases heach
      exact hone t c _ true h hfirst
    · cases heach

theorem sound_dispose (raises : Nat → Bool) (fuel : Nat) (t : ScopeTree) (s : Nat) (t' : ScopeTree) (raised : Bool)
    (h : Sound t) (hdispose : dispose raises fuel t s = some (t', raised)) : Grows t t' := by
  induction fuel generalizing t s t' raised with
  | zero => cases hdispose
  | succ fuel ih =>
    rw [dispose] at hdispose
    split at hdispose
    · cases hdispose
      exact ⟨h, fun _ => id⟩
    · next scope hscope =>
      split at hdispose
      · cases hdispose
        exact ⟨h, fun _ => id⟩
      · have hmark : ∀ x, t.isDisposed x = true → (t.mark s).isDisposed x = true := by
          intro x hx
          by_cases heq : x = s
          · subst heq
            rw [isDisposed, ScopeTree.mark, List.getElem?_modify_eq, hscope]
            rfl
          · rw [isDisposed_mark heq]
            exact hx
        have hself : (t.mark s).isDisposed s = true := by
          rw [isDisposed, ScopeTree.mark, List.getElem?_modify_eq, hscope]
          rfl
        split at hdispose
        · next t₁ heach =>
          obtain ⟨hsound, hgrows⟩ := sound_disposeEach ih (h.mark s) heach
          cases hdispose
          exact ⟨hsound.disposeOwn raises (hgrows s hself), fun x hx => hgrows x (hmark x hx)⟩
        · next t₁ heach =>
          obtain ⟨hsound, hgrows⟩ := sound_disposeEach ih (h.mark s) heach
          cases hdispose
          exact ⟨hsound, fun x hx => hgrows x (hmark x hx)⟩
        · cases hdispose

theorem sound_step (raises : Nat → Bool) (h : Sound t) (operation : Operation) : Sound (t.step raises operation) := by
  cases operation with
  | mint key => exact h.mint key
  | effect s => exact h.effect s
  | handle e => exact h.handle e
  | dispose s =>
    rw [step]
    cases hdispose : dispose raises t.depth t s with
    | none => exact h
    | some result => exact (sound_dispose raises _ t s result.1 result.2 h hdispose).1

theorem sound_run (raises : Nat → Bool) (operations : List Operation) : Sound (run raises operations) := by
  rw [run]
  have hfold (t : ScopeTree) (h : Sound t) : Sound (operations.foldl (step raises) t) := by
    induction operations generalizing t with
    | nil => exact h
    | cons operation operations ih => exact ih _ (sound_step raises h operation)
  exact hfold {} sound_initial

/-! ## When the disposal is complete -/

/-- The scope, or a live scope whose key has the scope's key among its
ancestors. -/
def Owned (t : ScopeTree) (s x : Nat) : Prop :=
  x = s ∨ (∃ key k, t.keyOf s = some key ∧ t.keyOf x = some k ∧ k.Below key) ∧ t.isDisposed x = false

/-- After the disposal of a scope, every effect registered through it or
through a live scope below it has been disposed of. -/
def Complete (t : ScopeTree) (s : Nat) (t' : ScopeTree) : Prop :=
  ∀ e x slot : Nat, t.disposables.effects[e]? = some ⟨x, slot⟩ → t.Owned s x → t'.disposables.settled e = true

/-- The disposers the disposal starts: those of scopes below, then its own. -/
def DescendantsFirst (t : ScopeTree) (s : Nat) (t' : ScopeTree) : Prop :=
  ∃ below own : List (Nat × Bool), t'.disposables.started = t.disposables.started ++ below ++ own ∧
    (∀ started ∈ below, ∃ x slot : Nat, t.disposables.effects[started.1]? = some ⟨x, slot⟩ ∧ x ≠ s ∧ t.Owned s x) ∧
    ∀ started ∈ own, ∃ slot : Nat, t.disposables.effects[started.1]? = some ⟨s, slot⟩

/-- A scope is within reach of a disposal: it is found, and no live effect of
what is found before it raises. -/
structure WithinReach (raises : Nat → Bool) (t : ScopeTree) (s x : Nat) : Prop where
  live : t.isDisposed s = false
  found : t.Found s x
  unhindered : ∀ e y slot : Nat, t.disposables.effects[e]? = some ⟨y, slot⟩ → t.Found s y → t.Precedes y x →
    t.disposables.isLive e = true → raises e = false

theorem mem_reached_concat (raises : Nat → Bool) (d : Disposables) (lists : List Nat) (s : Nat) :
    ∃ last, (last = [] ∨ last = [s]) ∧ d.reached raises (lists ++ [s]) = d.reached raises lists ++ last := by
  induction lists with
  | nil => exact ⟨[s], .inr rfl, by simp [Disposables.reached]⟩
  | cons l rest ih =>
    obtain ⟨last, hlast, heq⟩ := ih
    rw [List.cons_append, Disposables.reached, Disposables.reached, heq]
    split
    · exact ⟨[], .inl rfl, by simp⟩
    · exact ⟨last, hlast, rfl⟩

variable {raises : Nat → Bool} {s : Nat}

theorem Found.owned {x : Nat} (h : t.Found s x) : t.Owned s x := by
  rcases h with rfl | ⟨hvisible, key, k, hs, hk, hbelow, -⟩
  · exact .inl rfl
  · exact .inr ⟨⟨key, k, hs, hk, hbelow⟩, hvisible.1⟩

theorem isLive_of_effect {d : Disposables} {e : Nat} {placed : Effect} (he : d.effects[e]? = some placed) :
    d.isLive e = !d.settled e := by
  simp [Disposables.isLive, (List.getElem?_eq_some_iff.mp he).1]

theorem Sound.mem_liveOf (h : Sound t) {x e : Nat} (hlive : t.isDisposed x = false) :
    e ∈ t.disposables.liveOf x ↔
      t.disposables.isLive e = true ∧ ∃ slot, t.disposables.effects[e]? = some ⟨x, slot⟩ := by
  refine h.disposables.mem_liveOf ?_
  rintro ⟨raised, hraised⟩
  rw [h.idle x hlive] at hraised
  cases hraised

/-- The order is disposed of as far as it is within reach. -/
theorem Sound.mem_reached_iff (h : Sound t) (hs : t.keyOf s = some key) (hlive : t.isDisposed s = false) {x : Nat} :
    x ∈ t.disposables.reached raises (disposalOrder t.depth t s) ↔ t.WithinReach raises s x := by
  rw [Disposables.mem_reached_iff Precedes.asymm (pairwise_disposalOrder h.tracks t.depth hs)]
  simp only [mem_disposalOrder_iff h.tracks hs (deep_depth key)]
  constructor
  · rintro ⟨hfound, hquiet⟩
    refine ⟨hlive, hfound, fun e y slot he hy hbefore hlivee => ?_⟩
    have hmem := (h.mem_liveOf (hy.live hlive)).mpr ⟨hlivee, slot, he⟩
    simpa using List.any_eq_false.mp (hquiet y hy hbefore) e hmem
  · rintro ⟨-, hfound, hquiet⟩
    refine ⟨hfound, fun y hy hbefore => List.any_eq_false.mpr fun e he => ?_⟩
    obtain ⟨hlivee, slot, he⟩ := (h.mem_liveOf (hy.live hlive)).mp he
    simp [hquiet e y slot he hy hbefore hlivee]

theorem dispose_of_disposed (hs : s < t.minted.length) (hflag : t.isDisposed s = true) :
    dispose raises t.depth t s = some (t, false) := by
  have hscope : t.minted[s]? = some t.minted[s] := List.getElem?_eq_getElem hs
  rw [isDisposed, hscope] at hflag
  rw [depth, dispose, hscope]
  exact if_pos hflag

/-- The disposal of a live scope starts the live effects of its order, as far
as it is reached. -/
theorem Sound.dispose_live (raises : Nat → Bool) (h : Sound t) (hs : t.keyOf s = some key)
    (hlive : t.isDisposed s = false) :
    ∃ t' raised, dispose raises t.depth t s = some (t', raised) ∧
      t'.disposables.started = t.disposables.started ++
        ((t.disposables.reached raises (disposalOrder t.depth t s)).flatMap t.disposables.liveOf).map
          fun e => (e, true) := by
  obtain ⟨t', raised, hdispose, hspec⟩ := dispose_spec raises h.tracks ⟨rfl, fun _ => rfl, fun _ _ _ _ => rfl⟩ hs hlive
    (deep_depth key)
  obtain ⟨-, hstarted⟩ := Disposables.Sound.runOrder raises h.disposables (nodup_disposalOrder h.tracks t.depth hs)
    fun x hx => h.idle x ((found_of_mem_disposalOrder h.tracks hs hx).live hlive)
  rw [← hspec.run] at hstarted
  exact ⟨t', raised, hdispose, hstarted⟩

theorem Sound.descendantsFirst (h : Sound t) (hs : t.keyOf s = some key) (hlive : t.isDisposed s = false)
    (hstarted : t'.disposables.started = t.disposables.started ++
      ((t.disposables.reached raises (disposalOrder t.depth t s)).flatMap t.disposables.liveOf).map
        fun e => (e, true)) : t.DescendantsFirst s t' := by
  have hfound {x : Nat} (hx : x ∈ disposalOrder t.depth t s) := found_of_mem_disposalOrder h.tracks hs hx
  have hnodup := nodup_disposalOrder h.tracks t.depth hs
  obtain ⟨above, habove⟩ : ∃ above, disposalOrder t.depth t s = above ++ [s] := ⟨_, disposalOrder_succ hs⟩
  obtain ⟨last, hlast, hreached⟩ := mem_reached_concat raises t.disposables above s
  refine ⟨((t.disposables.reached raises above).flatMap t.disposables.liveOf).map fun e => (e, true),
    (last.flatMap t.disposables.liveOf).map fun e => (e, true), ?_, ?_, ?_⟩
  · rw [hstarted, habove, hreached, List.flatMap_append, List.map_append, List.append_assoc]
  · intro started hin
    obtain ⟨e, he, rfl⟩ := List.mem_map.mp hin
    obtain ⟨x, hx, hex⟩ := List.mem_flatMap.mp he
    have hxabove := Disposables.mem_of_mem_reached hx
    have hx := hfound (habove ▸ List.mem_append_left _ hxabove)
    obtain ⟨-, slot, heffect⟩ := (h.mem_liveOf (hx.live hlive)).mp hex
    refine ⟨x, slot, heffect, ?_, hx.owned⟩
    rintro rfl
    rw [habove, List.nodup_append] at hnodup
    exact hnodup.2.2 x hxabove x (List.mem_singleton_self x) rfl
  · intro started hin
    obtain ⟨e, he, rfl⟩ := List.mem_map.mp hin
    obtain ⟨x, hx, hex⟩ := List.mem_flatMap.mp he
    obtain rfl : x = s := by
      rcases hlast with rfl | rfl
      · cases hx
      · exact List.mem_singleton.mp hx
    exact ((h.mem_liveOf hlive).mp hex).2

theorem Sound.complete_iff (h : Sound t) (hs : t.keyOf s = some key) (hlive : t.isDisposed s = false)
    (hstarted : t'.disposables.started = t.disposables.started ++
      ((t.disposables.reached raises (disposalOrder t.depth t s)).flatMap t.disposables.liveOf).map
        fun e => (e, true)) :
    t.Complete s t' ↔ ∀ e x slot : Nat, t.disposables.effects[e]? = some ⟨x, slot⟩ → t.Owned s x →
      t.disposables.isLive e = true → t.WithinReach raises s x := by
  have hsettled {e x slot : Nat} (he : t.disposables.effects[e]? = some ⟨x, slot⟩) :
      t'.disposables.settled e = true ↔ t.disposables.isLive e = true → t.WithinReach raises s x := by
    have hmap : (((t.disposables.reached raises (disposalOrder t.depth t s)).flatMap t.disposables.liveOf).map
        fun e => (e, true)).any (fun started => started.1 == e) = true ↔
        ∃ y, t.WithinReach raises s y ∧ e ∈ t.disposables.liveOf y := by
      simp [List.any_eq_true, h.mem_reached_iff hs hlive]
    rw [Disposables.settled, hstarted, List.any_append, Bool.or_eq_true, hmap, isLive_of_effect he]
    constructor
    · rintro (hold | ⟨y, hy, hmem⟩) hlivee
      · rw [Disposables.settled, hold] at hlivee
        cases hlivee
      · obtain ⟨-, slot', he'⟩ := (h.mem_liveOf (hy.found.live hlive)).mp hmem
        rw [he] at he'
        cases he'
        exact hy
    · intro hreach
      by_cases hold : t.disposables.settled e = true
      · exact .inl hold
      · have hx := hreach (by simpa using hold)
        exact .inr ⟨x, hx, (h.mem_liveOf (hx.found.live hlive)).mpr
          ⟨by rw [isLive_of_effect he]; simpa using hold, slot, he⟩⟩
  exact ⟨fun hcomplete e x slot he howned => (hsettled he).mp (hcomplete e x slot he howned),
    fun hreach e x slot he howned => (hsettled he).mpr (hreach e x slot he howned)⟩

theorem complete_iff_of_disposed (hflag : t.isDisposed s = true) :
    t.Complete s t ↔ ∀ e x slot : Nat, t.disposables.effects[e]? = some ⟨x, slot⟩ → t.Owned s x →
      t.disposables.isLive e = true → t.WithinReach raises s x := by
  constructor
  · intro hcomplete e x slot he howned hlive
    rw [isLive_of_effect he, hcomplete e x slot he howned] at hlive
    cases hlive
  · intro hreach e x slot he howned
    by_contra hsettled
    have hlive : t.disposables.isLive e = true := by
      rw [isLive_of_effect he]
      simpa using hsettled
    exact Bool.false_ne_true ((hreach e x slot he howned hlive).live.symm.trans hflag)

end ScopeTree

end MinionAgent
