import Mathlib.Data.Finset.Card
import Mathlib.Data.Finset.Range
import MinionAgent.Runtime.Registry

/-!
# MinionAgent.Runtime.RegistryKept

What the operations of the registry keep.

* `PluginRegistry.Kept` — what every call of a method keeps;
* `PluginRegistry.Keeps` — what a call inside a disposer leaves alone;
* `PluginRegistry.body_keeps` — the body of a fiber.
-/

namespace MinionAgent

namespace PluginRegistry

/-! ## Operations on fibers -/

@[simp] theorem fibers_modify_self (r : PluginRegistry) (i : Nat) (f : PluginFiber → PluginFiber) :
    (r.modify i f).fibers i = f (r.fibers i) := by simp [modify]

@[simp] theorem fibers_modify_ne (r : PluginRegistry) {i j : Nat} (h : j ≠ i) (f : PluginFiber → PluginFiber) :
    (r.modify i f).fibers j = r.fibers j := by simp [modify, h]

@[simp] theorem impls_modify (r : PluginRegistry) (i : Nat) (f : PluginFiber → PluginFiber) :
    (r.modify i f).impls = r.impls := rfl

/-- The body or the effects of a fiber run. -/
def Frozen (r : PluginRegistry) (i : Nat) : Prop := r.state i = .loading ∨ r.state i = .unloading

instance (r : PluginRegistry) : DecidablePred r.Frozen := fun _ => inferInstanceAs (Decidable (_ ∨ _))

/-- The number of fibers that are not frozen. -/
def free (r : PluginRegistry) : Nat := {i ∈ Finset.range r.count | ¬ r.Frozen i}.card

/-- What every call of a method keeps. -/
structure Kept (r : PluginRegistry) : Prop where
  owner : ∀ name i, r.impls name = some i → name ∈ r.provided i ∧ (r.state i = .active ∨ r.Frozen i)
  active : ∀ i, r.state i = .active → r.mounted i = true ∧ r.provided i = (r.plugin i).provides ∧
    ∀ name ∈ (r.plugin i).provides, r.impls name = some i
  idle : ∀ i, r.state i ≠ .active → ¬ r.Frozen i → r.provided i = []
  unmounted : ∀ i, r.mounted i = false → r.state i = .disposed ∨ r.Frozen i
  bounded : ∀ i, r.count ≤ i → r.state i = .disposed ∧ r.mounted i = false

/-- What stays of the fibers of a set, and of all fibers. -/
structure Keeps (P : Nat → Prop) (r x : PluginRegistry) : Prop where
  count : x.count = r.count
  fibers : ∀ i, P i → x.fibers i = r.fibers i
  impls : ∀ i name, P i → (x.impls name = some i ↔ r.impls name = some i)
  thawed : ∀ i, x.Frozen i → r.Frozen i
  plugin : ∀ i, x.plugin i = r.plugin i
  mounted : ∀ i, x.mounted i = r.mounted i

variable {r x y : PluginRegistry} {P Q : Nat → Prop}

theorem Keeps.refl : Keeps P r r :=
  ⟨rfl, fun _ _ => rfl, fun _ _ _ => Iff.rfl, fun _ => id, fun _ => rfl, fun _ => rfl⟩

theorem Keeps.trans (hrx : Keeps P r x) (hxy : Keeps P x y) : Keeps P r y where
  count := hxy.count.trans hrx.count
  fibers i hi := (hxy.fibers i hi).trans (hrx.fibers i hi)
  impls i name hi := (hxy.impls i name hi).trans (hrx.impls i name hi)
  thawed i := hrx.thawed i ∘ hxy.thawed i
  plugin i := (hxy.plugin i).trans (hrx.plugin i)
  mounted i := (hxy.mounted i).trans (hrx.mounted i)

theorem Keeps.mono (h : Keeps Q r x) (hPQ : ∀ i, P i → Q i) : Keeps P r x :=
  ⟨h.count, fun i hi => h.fibers i (hPQ i hi), fun i name hi => h.impls i name (hPQ i hi), h.thawed, h.plugin,
    h.mounted⟩

theorem frozen_congr (h : x.fibers = r.fibers) (i : Nat) : x.Frozen i ↔ r.Frozen i := by
  simp only [Frozen, state, h]

/-- What keeps the frozen fibers has the same. -/
theorem Keeps.frozen_iff (h : Keeps r.Frozen r x) (i : Nat) : x.Frozen i ↔ r.Frozen i := by
  refine ⟨h.thawed i, fun hi => ?_⟩
  simp only [Frozen, state, h.fibers i hi] at hi ⊢
  exact hi

theorem Keeps.free (h : Keeps r.Frozen r x) : x.free = r.free := by
  rw [PluginRegistry.free, PluginRegistry.free, h.count]
  congr 1
  exact Finset.filter_congr fun i _ => by rw [h.frozen_iff i]

theorem Keeps.then (hrx : Keeps r.Frozen r x) (hxy : Keeps x.Frozen x y) : Keeps r.Frozen r y :=
  hrx.trans (hxy.mono fun i hi => (hrx.frozen_iff i).mpr hi)

/-- A fiber that was free is frozen. -/
theorem free_lt {i : Nat} (hcount : x.count = r.count) (hi : i < r.count) (hfree : ¬ r.Frozen i) (hfrozen : x.Frozen i)
    (hothers : ∀ j, r.Frozen j → x.Frozen j) : x.free < r.free := by
  rw [free, free, hcount]
  refine Finset.card_lt_card (Finset.ssubset_iff_of_subset ?_ |>.mpr ⟨i, ?_, ?_⟩)
  · intro j hj
    rw [Finset.mem_filter] at hj ⊢
    exact ⟨hj.1, fun hfrozen => hj.2 (hothers j hfrozen)⟩
  · exact Finset.mem_filter.mpr ⟨Finset.mem_range.mpr hi, hfree⟩
  · exact fun hmem => (Finset.mem_filter.mp hmem).2 hfrozen

/-! ## What every call keeps -/

/-- What is read of a fiber when one was changed. -/
theorem fibers_modify {β : Type} (r : PluginRegistry) (i j : Nat) (f : PluginFiber → PluginFiber)
    (read : PluginFiber → β) :
    read ((r.modify i f).fibers j) = if j = i then read (f (r.fibers i)) else read (r.fibers j) := by
  by_cases h : j = i
  · simp [h]
  · simp [h]

/-- The change keeps what is read. -/
theorem fibers_modify_same {β : Type} (r : PluginRegistry) (i j : Nat) {f : PluginFiber → PluginFiber}
    (read : PluginFiber → β) (hf : read (f (r.fibers i)) = read (r.fibers i)) :
    read ((r.modify i f).fibers j) = read (r.fibers j) := by
  refine (fibers_modify r i j f read).trans ?_
  split
  · next h => rw [hf, h]
  · rfl

theorem state_modify (r : PluginRegistry) (i j : Nat) (f : PluginFiber → PluginFiber) :
    (r.modify i f).state j = if j = i then (f (r.fibers i)).state else r.state j :=
  fibers_modify r i j f PluginFiber.state

theorem plugin_modify (r : PluginRegistry) (i j : Nat) (f : PluginFiber → PluginFiber) :
    (r.modify i f).plugin j = if j = i then (f (r.fibers i)).plugin else r.plugin j :=
  fibers_modify r i j f PluginFiber.plugin

theorem provided_modify (r : PluginRegistry) (i j : Nat) (f : PluginFiber → PluginFiber) :
    (r.modify i f).provided j = if j = i then (f (r.fibers i)).provided else r.provided j :=
  fibers_modify r i j f PluginFiber.provided

theorem mounted_modify (r : PluginRegistry) (i j : Nat) (f : PluginFiber → PluginFiber) :
    (r.modify i f).mounted j = if j = i then (f (r.fibers i)).mounted else r.mounted j :=
  fibers_modify r i j f PluginFiber.mounted

/-- A fiber changes that is not active afterwards. -/
theorem Kept.modify (h : Kept r) {i : Nat} (hi : i < r.count) {f : PluginFiber → PluginFiber}
    (hactive : (f (r.fibers i)).state ≠ .active)
    (howner : ∀ name, r.impls name = some i → name ∈ (f (r.fibers i)).provided ∧
      ((f (r.fibers i)).state = .loading ∨ (f (r.fibers i)).state = .unloading))
    (hidle : (f (r.fibers i)).state = .loading ∨ (f (r.fibers i)).state = .unloading ∨ (f (r.fibers i)).provided = [])
    (hmounted : (f (r.fibers i)).mounted = true ∨ (f (r.fibers i)).state = .disposed ∨
      (f (r.fibers i)).state = .loading ∨ (f (r.fibers i)).state = .unloading) : Kept (r.modify i f) where
  owner := by
    intro name j hj
    simp only [Frozen, state_modify, provided_modify]
    by_cases heq : j = i
    · subst heq
      simp only [if_true]
      exact ⟨(howner name hj).1, .inr (howner name hj).2⟩
    · simp only [if_neg heq]
      exact h.owner name j hj
  active := by
    intro j hj
    rw [state_modify] at hj
    rw [mounted_modify, provided_modify, plugin_modify, impls_modify]
    by_cases heq : j = i
    · rw [if_pos heq] at hj
      exact absurd hj hactive
    · simp only [if_neg heq] at hj ⊢
      exact h.active j hj
  idle := by
    intro j hj hfrozen
    simp only [Frozen, state_modify, provided_modify] at hj hfrozen ⊢
    by_cases heq : j = i
    · simp only [if_pos heq, not_or] at hfrozen ⊢
      rcases hidle with hloading | hunloading | hnil
      · exact absurd hloading hfrozen.1
      · exact absurd hunloading hfrozen.2
      · exact hnil
    · simp only [if_neg heq] at hj hfrozen ⊢
      exact h.idle j hj hfrozen
  unmounted := by
    intro j hj
    simp only [Frozen, state_modify, mounted_modify] at hj ⊢
    by_cases heq : j = i
    · simp only [if_pos heq] at hj ⊢
      rcases hmounted with hmounted | hstate
      · rw [hmounted] at hj
        cases hj
      · exact hstate
    · simp only [if_neg heq] at hj ⊢
      exact h.unmounted j hj
  bounded := by
    intro j hj
    have hne : j ≠ i := by
      rintro rfl
      exact absurd hi (Nat.not_lt_of_le hj)
    simp only [state_modify, mounted_modify, if_neg hne]
    exact h.bounded j hj

/-- A fiber whose state is not that of fibers that were never mounted. -/
theorem Kept.lt_count (h : Kept r) {i : Nat} (hi : r.state i ≠ .disposed) : i < r.count :=
  Nat.lt_of_not_le fun hge => hi (h.bounded i hge).1

theorem Kept.frozen_lt (h : Kept r) {i : Nat} (hi : r.Frozen i) : i < r.count := by
  refine h.lt_count fun hdisposed => ?_
  simp [Frozen, hdisposed] at hi

theorem fibers_revoke (r : PluginRegistry) (i : Nat) (name : String) : (r.revoke i name).fibers = r.fibers := by
  rw [revoke]
  split <;> rfl

theorem count_revoke (r : PluginRegistry) (i : Nat) (name : String) : (r.revoke i name).count = r.count := by
  rw [revoke]
  split <;> rfl

theorem impls_revoke (r : PluginRegistry) (i : Nat) (name name' : String) (j : Nat) :
    (r.revoke i name).impls name' = some j ↔ r.impls name' = some j ∧ ¬ (name' = name ∧ j = i) := by
  rw [revoke]
  split
  · next howner =>
    simp only [Function.update_apply]
    grind
  · next howner =>
    refine ⟨fun hj => ⟨hj, ?_⟩, And.left⟩
    rintro ⟨rfl, rfl⟩
    exact howner hj

theorem Kept.of_fibers (h : Kept r) (hfibers : x.fibers = r.fibers) (hcount : x.count = r.count)
    (howner : ∀ name i, x.impls name = some i → r.impls name = some i)
    (hactive : ∀ i, r.state i = .active → ∀ name, r.impls name = some i → x.impls name = some i) : Kept x := by
  have hstate (i : Nat) : x.state i = r.state i := by rw [state, state, hfibers]
  have hprovided (i : Nat) : x.provided i = r.provided i := by rw [provided, provided, hfibers]
  have hplugin (i : Nat) : x.plugin i = r.plugin i := by rw [plugin, plugin, hfibers]
  have hmounted (i : Nat) : x.mounted i = r.mounted i := by rw [mounted, mounted, hfibers]
  refine ⟨?_, ?_, ?_, ?_, ?_⟩ <;> simp only [Frozen, hstate, hprovided, hplugin, hmounted, hcount]
  · exact fun name i hi => h.owner name i (howner name i hi)
  · intro i hi
    obtain ⟨hin, hprovides, himpls⟩ := h.active i hi
    exact ⟨hin, hprovides, fun name hname => hactive i hi name (himpls name hname)⟩
  · exact h.idle
  · exact h.unmounted
  · exact h.bounded

theorem Kept.revoke (h : Kept r) {i : Nat} (hi : r.Frozen i) (name : String) : Kept (r.revoke i name) := by
  refine h.of_fibers (fibers_revoke r i name) (count_revoke r i name)
    (fun name' j hj => ((impls_revoke r i name name' j).mp hj).1) fun j hj name' hname' => ?_
  refine (impls_revoke r i name name' j).mpr ⟨hname', ?_⟩
  rintro ⟨-, rfl⟩
  simp [Frozen, hj] at hi

theorem keeps_revoke (r : PluginRegistry) (i : Nat) (name : String) : Keeps (· ≠ i) r (r.revoke i name) := by
  have hfibers := fibers_revoke r i name
  refine ⟨count_revoke r i name, fun j _ => by rw [hfibers], fun j name' hj => ?_, fun j => (frozen_congr hfibers j).mp,
    fun j => by rw [plugin, plugin, hfibers], fun j => by rw [mounted, mounted, hfibers]⟩
  rw [impls_revoke]
  exact ⟨And.left, fun hname' => ⟨hname', fun hsame => hj hsame.2⟩⟩

theorem keeps_modify (r : PluginRegistry) (i : Nat) {f : PluginFiber → PluginFiber}
    (hplugin : (f (r.fibers i)).plugin = (r.fibers i).plugin)
    (hmounted : (f (r.fibers i)).mounted = (r.fibers i).mounted)
    (hthawed : (r.modify i f).Frozen i → r.Frozen i) : Keeps (· ≠ i) r (r.modify i f) := by
  refine ⟨rfl, fun j hj => fibers_modify_ne r hj f, fun _ _ _ => Iff.rfl, fun j hj => ?_, fun j => ?_, fun j => ?_⟩
  · by_cases heq : j = i
    · subst heq
      exact hthawed hj
    · simp only [Frozen, state_modify, if_neg heq] at hj
      exact hj
  · exact fibers_modify_same r i j PluginFiber.plugin hplugin
  · exact fibers_modify_same r i j PluginFiber.mounted hmounted

/-! ## Loads and unloads -/

theorem impls_register (r : PluginRegistry) (i : Nat) (name name' : String) :
    (r.register i name).impls name' = if name' = name then some i else r.impls name' := Function.update_apply _ _ _ _

theorem Kept.register (h : Kept r) {i : Nat} (hi : r.state i = .loading) {name : String} (hname : r.impls name = none) :
    Kept (r.register i name) := by
  have hsame {β : Type} (read : PluginFiber → β)
      (hread : ∀ f, read { f with provided := f.provided ++ [name] } = read f)
      (j : Nat) : read ((r.register i name).fibers j) = read (r.fibers j) :=
    fibers_modify_same r i j (f := fun f => { f with provided := f.provided ++ [name] }) read (hread _)
  have hstate (j : Nat) : (r.register i name).state j = r.state j := hsame PluginFiber.state (fun _ => rfl) j
  have hprovided (j : Nat) : (r.register i name).provided j = if j = i then r.provided i ++ [name] else r.provided j :=
    provided_modify r i j fun f => { f with provided := f.provided ++ [name] }
  have hplugin (j : Nat) : (r.register i name).plugin j = r.plugin j := hsame PluginFiber.plugin (fun _ => rfl) j
  have hmounted (j : Nat) : (r.register i name).mounted j = r.mounted j := hsame PluginFiber.mounted (fun _ => rfl) j
  refine ⟨fun name' j hj => ?_, fun j hj => ?_, fun j hj hfrozen => ?_, fun j hj => ?_, fun j hj => ?_⟩
  · rw [impls_register] at hj
    simp only [Frozen, hstate, hprovided]
    split at hj
    · next heq =>
      cases hj
      rw [if_pos rfl, heq]
      exact ⟨List.mem_append_right _ List.mem_cons_self, .inr (.inl hi)⟩
    · obtain ⟨hin, hlive⟩ := h.owner name' j hj
      refine ⟨?_, hlive⟩
      split
      · next heq => exact List.mem_append_left _ (heq ▸ hin)
      · exact hin
  · rw [hstate] at hj
    have hne : j ≠ i := by
      rintro rfl
      rw [hi] at hj
      cases hj
    obtain ⟨hin, hprovides, himpls⟩ := h.active j hj
    rw [hmounted, hprovided, hplugin, if_neg hne]
    refine ⟨hin, hprovides, fun name' hname' => ?_⟩
    rw [impls_register, if_neg ?_]
    · exact himpls name' hname'
    · rintro rfl
      rw [himpls name' hname'] at hname
      cases hname
  · simp only [Frozen, hstate] at hj hfrozen
    rw [hprovided, if_neg]
    · exact h.idle j hj hfrozen
    · rintro rfl
      exact hfrozen (.inl hi)
  · rw [hmounted] at hj
    simp only [Frozen, hstate]
    exact h.unmounted j hj
  · rw [hstate, hmounted]
    exact h.bounded j hj

theorem keeps_register {i : Nat} (hi : r.state i = .loading) {name : String} (hname : r.impls name = none) :
    Keeps (· ≠ i) r (r.register i name) := by
  have hmodify := keeps_modify r i (f := fun f => { f with provided := f.provided ++ [name] }) rfl rfl fun _ => .inl hi
  refine ⟨hmodify.count, hmodify.fibers, fun j name' hj => ?_, hmodify.thawed, hmodify.plugin, hmodify.mounted⟩
  rw [impls_register]
  split
  · next heq =>
    rw [heq, hname]
    exact ⟨fun hsame => absurd (Option.some.inj hsame).symm hj, nofun⟩
  · exact Iff.rfl

/-- The body provides its services, up to a conflict. -/
theorem body_keeps {i : Nat} (names : List String) (h : Kept r) (hi : r.state i = .loading) :
    Kept (body i names r).1 ∧ Keeps (· ≠ i) r (body i names r).1 ∧ (body i names r).1.state i = .loading ∧
      (∀ name, r.impls name = some i → (body i names r).1.impls name = some i) ∧
      ((body i names r).2 = true → (body i names r).1.provided i = r.provided i ++ names ∧
        ∀ name ∈ names, (body i names r).1.impls name = some i) := by
  induction names generalizing r with
  | nil => exact ⟨h, .refl, hi, fun _ => id, fun _ => ⟨(List.append_nil _).symm, fun name hname => by cases hname⟩⟩
  | cons name names ih =>
    rw [body]
    split
    · exact ⟨h, .refl, hi, fun _ => id, nofun⟩
    · next hname =>
      have hstate : (r.register i name).state i = .loading :=
        (state_modify r i i fun f => { f with provided := f.provided ++ [name] }).trans ((if_pos rfl).trans hi)
      obtain ⟨hkept, hkeeps, hloading, hold, hall⟩ := ih (h.register hi hname) hstate
      refine ⟨hkept, (keeps_register hi hname).trans hkeeps, hloading, fun name' hname' => hold name' ?_, fun hok => ?_⟩
      · rw [impls_register]
        split
        · rfl
        · exact hname'
      · obtain ⟨hprovided, himpls⟩ := hall hok
        have hnew : (r.register i name).provided i = r.provided i ++ [name] :=
          (provided_modify r i i fun f => { f with provided := f.provided ++ [name] }).trans (if_pos rfl)
        refine ⟨by rw [hprovided, hnew, List.append_assoc, List.singleton_append], fun name' hmem => ?_⟩
        rcases List.mem_cons.mp hmem with rfl | hrest
        · exact hold name' (by rw [impls_register, if_pos rfl])
        · exact himpls name' hrest

/-- A body that meets no conflict. -/
theorem body_succeeds {i : Nat} (names : List String) (hnodup : names.Nodup)
    (hfree : ∀ name ∈ names, r.impls name = none) :
    (body i names r).2 = true := by
  induction names generalizing r with
  | nil => rfl
  | cons name names ih =>
    obtain ⟨hnot, hnodup⟩ := List.nodup_cons.mp hnodup
    rw [body, hfree name List.mem_cons_self]
    refine ih hnodup fun name' hname' => ?_
    rw [impls_register, if_neg]
    · exact hfree name' (List.mem_cons_of_mem _ hname')
    · rintro rfl
      exact hnot hname'

/-- A load that succeeds. -/
theorem Kept.activate (h : Kept r) {i : Nat} (hi : r.state i = .loading) (hmounted : r.mounted i = true)
    (hprovided : r.provided i = (r.plugin i).provides)
    (himpls : ∀ name ∈ (r.plugin i).provides, r.impls name = some i) :
    Kept (r.transition i .active) := by
  have hstate (j : Nat) : (r.transition i .active).state j = if j = i then .active else r.state j :=
    state_modify r i j _
  have hsame (j : Nat) : (r.transition i .active).provided j = r.provided j ∧
      (r.transition i .active).plugin j = r.plugin j ∧ (r.transition i .active).mounted j = r.mounted j :=
    ⟨fibers_modify_same r i j PluginFiber.provided rfl, fibers_modify_same r i j PluginFiber.plugin rfl,
      fibers_modify_same r i j PluginFiber.mounted rfl⟩
  refine ⟨fun name j hj => ?_, fun j hj => ?_, fun j hj hfrozen => ?_, fun j hj => ?_, fun j hj => ?_⟩
  · obtain ⟨hin, hlive⟩ := h.owner name j hj
    rw [(hsame j).1]
    refine ⟨hin, ?_⟩
    simp only [Frozen, hstate]
    split
    · exact .inl rfl
    · exact hlive
  · rw [(hsame j).1, (hsame j).2.1, (hsame j).2.2]
    by_cases heq : j = i
    · subst heq
      exact ⟨hmounted, hprovided, himpls⟩
    · rw [hstate, if_neg heq] at hj
      exact h.active j hj
  · simp only [Frozen, hstate] at hj hfrozen
    rw [(hsame j).1]
    split at hj
    · exact absurd rfl hj
    · next hne =>
      rw [if_neg hne] at hfrozen
      exact h.idle j hj hfrozen
  · rw [(hsame j).2.2] at hj
    simp only [Frozen, hstate]
    split
    · next heq =>
      rw [heq, hmounted] at hj
      cases hj
    · exact h.unmounted j hj
  · have hne : j ≠ i := by
      rintro rfl
      exact absurd (h.lt_count (by rw [hi]; exact FiberState.noConfusion)) (Nat.not_lt_of_le hj)
    rw [hstate, if_neg hne, (hsame j).2.2]
    exact h.bounded j hj

theorem Kept.mounted_of_state (h : Kept r) {i : Nat} (hdisposed : r.state i ≠ .disposed) (hfrozen : ¬ r.Frozen i) :
    r.mounted i = true := by
  by_contra hnot
  exact (h.unmounted i (by simpa using hnot)).elim hdisposed hfrozen

/-- A pending fiber begins to load. -/
theorem Kept.beginLoad (h : Kept r) {i : Nat} (hi : r.state i = .pending) : Kept (r.transition i .loading) := by
  have hidle := h.idle i (by simp [hi]) (by simp [Frozen, hi])
  refine h.modify (h.lt_count (by simp [hi])) (by simp) (fun name hname => ?_) (.inl rfl) (.inr (.inr (.inl rfl)))
  have hin := (h.owner name i hname).1
  rw [hidle] at hin
  cases hin

/-- An active fiber begins to unload. -/
theorem Kept.beginUnload (h : Kept r) {i : Nat} (hi : r.state i = .active) : Kept (r.transition i .unloading) :=
  h.modify (h.lt_count (by simp [hi])) (by simp) (fun name hname => ⟨(h.owner name i hname).1, .inr rfl⟩)
    (.inr (.inl rfl)) (.inr (.inr (.inr rfl)))

/-- A fiber is frozen. -/
theorem free_transition {i : Nat} (hi : i < r.count) (hfree : ¬ r.Frozen i) {state : FiberState}
    (hstate : state = .loading ∨ state = .unloading) : (r.transition i state).free < r.free := by
  refine free_lt rfl hi hfree ?_ fun j hj => ?_
  · rw [Frozen, transition, state_modify, if_pos rfl]
    exact hstate
  · have hne : j ≠ i := by
      rintro rfl
      exact hfree hj
    rw [Frozen, transition, state_modify, if_neg hne]
    exact hj

theorem keeps_transition (r : PluginRegistry) (i : Nat) (state : FiberState) (j : Nat) (hj : j ≠ i) :
    (r.transition i state).fibers j = r.fibers j := fibers_modify_ne r hj _

/-- A fiber is unwound after it was frozen. -/
theorem keeps_frozen_of {i : Nat} (hfree : ¬ r.Frozen i) (hx : ∀ j, j ≠ i → x.fibers j = r.fibers j)
    (hcount : x.count = r.count) (himpls : ∀ j name, j ≠ i → (x.impls name = some j ↔ r.impls name = some j))
    (hplugin : x.plugin i = r.plugin i) (hmounted : x.mounted i = r.mounted i)
    (h : Keeps (fun j => x.Frozen j ∧ j ≠ i) x y) (hy : ¬ y.Frozen i) : Keeps r.Frozen r y := by
  have hne {j : Nat} (hj : r.Frozen j) : j ≠ i := by
    rintro rfl
    exact hfree hj
  have hfrozen {j : Nat} (hj : j ≠ i) : x.Frozen j ↔ r.Frozen j := by simp only [Frozen, state, hx j hj]
  refine ⟨h.count.trans hcount, fun j hj => ?_, fun j name hj => ?_, fun j hj => ?_, fun j => ?_, fun j => ?_⟩
  · rw [h.fibers j ⟨(hfrozen (hne hj)).mpr hj, hne hj⟩, hx j (hne hj)]
  · rw [h.impls j name ⟨(hfrozen (hne hj)).mpr hj, hne hj⟩, himpls j name (hne hj)]
  · have hji : j ≠ i := by
      rintro rfl
      exact hy hj
    exact (hfrozen hji).mp (h.thawed j hj)
  · rw [h.plugin]
    by_cases heq : j = i
    · rw [heq, hplugin]
    · rw [plugin, plugin, hx j heq]
  · rw [h.mounted]
    by_cases heq : j = i
    · rw [heq, hmounted]
    · rw [mounted, mounted, hx j heq]

theorem Keeps.frozen_iff_of_ne {i : Nat} (h : Keeps (· ≠ i) r x) {j : Nat} (hj : j ≠ i) : x.Frozen j ↔ r.Frozen j := by
  simp only [Frozen, state, h.fibers j hj]

theorem free_congr (hcount : x.count = r.count) (hfrozen : ∀ j, x.Frozen j ↔ r.Frozen j) : x.free = r.free := by
  rw [free, free, hcount]
  congr 1
  exact Finset.filter_congr fun i _ => by rw [hfrozen i]

end PluginRegistry

end MinionAgent
