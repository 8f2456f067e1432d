import MinionAgent.Runtime.RegistryKept

/-!
# MinionAgent.Runtime.RegistryRuns

Every call of the registry comes back.

* `PluginRegistry.Runs` — calls with so many free fibers end, and leave what is
  frozen alone;
* `PluginRegistry.runs_reconcile` — `reconcile` ends.
-/

namespace MinionAgent

namespace PluginRegistry

variable {r x y : PluginRegistry} {reconcile : PluginRegistry → Option Outcome} {m : Nat}

/-! ## Calls inside disposers -/

/-- Calls with so many free fibers end, and leave what is frozen alone. -/
def Runs (reconcile : PluginRegistry → Option Outcome) (m : Nat) : Prop :=
  ∀ r, Kept r → r.free < m → ∃ x e, reconcile r = some (x, e) ∧ Kept x ∧ Keeps r.Frozen r x

theorem runs_disposeAll (hreconcile : Runs reconcile m) {i : Nat} (names : List String) (h : Kept r) (hi : r.Frozen i)
    (hfree : r.free < m) : ∃ x errors, disposeAll reconcile i names r = some (x, errors) ∧ Kept x ∧
      Keeps (fun j => r.Frozen j ∧ j ≠ i) r x ∧ x.fibers i = r.fibers i ∧
      ∀ name, x.impls name = some i → r.impls name = some i ∧ name ∉ names := by
  induction names generalizing r with
  | nil => exact ⟨r, [], rfl, h, .refl, rfl, fun name hname => ⟨hname, List.not_mem_nil⟩⟩
  | cons name names ih =>
    have hfibers := fibers_revoke r i name
    have hfrozen (j : Nat) : (r.revoke i name).Frozen j ↔ r.Frozen j := frozen_congr hfibers j
    have hfree' : (r.revoke i name).free < m := by
      simp only [free, count_revoke, hfrozen] at hfree ⊢
      exact hfree
    obtain ⟨x, e, hx, hkept, hkeeps⟩ := hreconcile _ (h.revoke hi name) hfree'
    have hix : x.Frozen i := (hkeeps.frozen_iff i).mpr ((hfrozen i).mpr hi)
    obtain ⟨y, errors, hy, hkept', hkeeps', hfiber, himpls⟩ := ih hkept hix (hkeeps.free ▸ hfree')
    refine ⟨y, e.toList ++ errors, ?_, hkept', ?_, ?_, fun name' hname' => ?_⟩
    · rw [disposeAll, hx]
      simp only [hy]
    · refine ((keeps_revoke r i name).mono fun j hj => hj.2).trans ((hkeeps.mono fun j hj => (hfrozen j).mpr hj.1).trans
        (hkeeps'.mono fun j hj => ⟨(hkeeps.frozen_iff j).mpr ((hfrozen j).mpr hj.1), hj.2⟩))
    · rw [hfiber, hkeeps.fibers i ((hfrozen i).mpr hi), hfibers]
    · obtain ⟨hin, hnot⟩ := himpls name' hname'
      rw [hkeeps.impls i name' ((hfrozen i).mpr hi), impls_revoke] at hin
      refine ⟨hin.1, fun hmem => ?_⟩
      rcases List.mem_cons.mp hmem with rfl | hrest
      · exact hin.2 ⟨rfl, rfl⟩
      · exact hnot hrest

theorem runs_settle (hreconcile : Runs reconcile m) {i : Nat} (h : Kept r) (hi : r.Frozen i) (hfree : r.free < m)
    {state : FiberState} (hstate : state = .pending ∨ state = .failed ∨ state = .disposed)
    (hmounted : r.mounted i = true ∨ state = .disposed) : ∃ x e, r.settle reconcile i state = some (x, e) ∧ Kept x ∧
      Keeps (fun j => r.Frozen j ∧ j ≠ i) r x ∧ x.state i = state := by
  obtain ⟨x, errors, hx, hkept, hkeeps, hfiber, himpls⟩ := runs_disposeAll hreconcile (r.provided i).reverse h hi hfree
  have hnone (name : String) : x.impls name ≠ some i := by
    intro hname
    obtain ⟨hin, hnot⟩ := himpls name hname
    exact hnot (List.mem_reverse.mpr (h.owner name i hin).1)
  have hnotFrozen : ¬ (x.modify i fun f => { f with provided := [], state }).Frozen i := by
    simp only [Frozen, state_modify, if_true]
    rcases hstate with rfl | rfl | rfl <;> simp
  refine ⟨_, groupOf errors, by rw [settle, hx], ?_, ?_, ?_⟩
  · refine hkept.modify (hkeeps.count ▸ h.frozen_lt hi) ?_ (fun name hname => absurd hname (hnone name))
      (.inr (.inr rfl)) ?_
    · rcases hstate with rfl | rfl | rfl <;> simp
    · simp only [hfiber]
      exact hmounted.imp id .inl
  · refine hkeeps.trans ((keeps_modify x i rfl rfl fun hfrozen => absurd hfrozen hnotFrozen).mono fun j hj => hj.2)
  · rw [state_modify, if_pos rfl]

/-! ## Loads and unloads -/

/-- `load` ends, and leaves what is frozen alone. -/
theorem runs_load (hreconcile : Runs reconcile m) (h : Kept r) (hfree : r.free < m + 1) (i : Nat) (validate : Bool) :
    ∃ x e, r.load reconcile i validate = some (x, e) ∧ Kept x ∧ Keeps r.Frozen r x := by
  rw [load]
  split
  · next hpending =>
    have hi : i < r.count := h.lt_count (by simp [hpending])
    have hthawed : ¬ r.Frozen i := by simp [Frozen, hpending]
    have hmounted : r.mounted i = true := h.mounted_of_state (by simp [hpending]) hthawed
    have hless := free_transition hi hthawed (.inl rfl : FiberState.loading = .loading ∨ _)
    have hloading : (r.transition i .loading).state i = .loading := (state_modify r i i _).trans (if_pos rfl)
    have hplugin : (r.transition i .loading).plugin i = r.plugin i := (plugin_modify r i i _).trans (if_pos rfl)
    have hmounted' : (r.transition i .loading).mounted i = r.mounted i := (mounted_modify r i i _).trans (if_pos rfl)
    have hprovided : (r.transition i .loading).provided i = [] :=
      ((provided_modify r i i _).trans (if_pos rfl)).trans (h.idle i (by simp [hpending]) hthawed)
    obtain ⟨hkept, hkeeps, hstate, -, hall⟩ := body_keeps (r.plugin i).provides (h.beginLoad hpending) hloading
    cases hbody : body i (r.plugin i).provides (r.transition i .loading) with
    | mk x ok =>
      rw [hbody] at hkept hkeeps hstate hall
      simp only at hkept hkeeps hstate hall
      have hfrozen : x.Frozen i := .inl hstate
      have hfreex : x.free < m := by
        rw [free_congr (r := r.transition i .loading) hkeeps.count fun j => ?_]
        · omega
        · by_cases heq : j = i
          · subst heq
            exact ⟨fun _ => .inl hloading, fun _ => hfrozen⟩
          · exact hkeeps.frozen_iff_of_ne heq
      have hmountedx : x.mounted i = true := by rw [hkeeps.mounted, hmounted', hmounted]
      have hsame (j : Nat) (hj : j ≠ i) : x.fibers j = r.fibers j :=
        (hkeeps.fibers j hj).trans (keeps_transition r i .loading j hj)
      have hsettle (state : FiberState) (hstate' : state = .pending ∨ state = .failed) :
          ∃ y e, x.settle reconcile i state = some (y, e) ∧ Kept y ∧ Keeps r.Frozen r y := by
        obtain ⟨y, e, hy, hkept', hkeeps', hstate''⟩ := runs_settle hreconcile hkept hfrozen hfreex
          (hstate'.imp id .inl) (.inl hmountedx)
        refine ⟨y, e, hy, hkept', keeps_frozen_of hthawed hsame hkeeps.count (fun j name hj => hkeeps.impls j name hj)
          (by rw [hkeeps.plugin, hplugin]) (by rw [hkeeps.mounted, hmounted']) hkeeps' ?_⟩
        rcases hstate' with rfl | rfl <;> simp [Frozen, hstate'']
      cases ok with
      | false => exact hsettle .failed (.inr rfl)
      | true =>
        simp only
        split
        · exact hsettle .pending (.inl rfl)
        · obtain ⟨hprovides, himpls⟩ := hall rfl
          have hpluginx : x.plugin i = r.plugin i := by rw [hkeeps.plugin, hplugin]
          refine ⟨_, _, rfl, hkept.activate hstate hmountedx ?_ ?_, ?_⟩
          · rw [hprovides, hprovided, List.nil_append, hpluginx]
          · rw [hpluginx]
            exact himpls
          · refine keeps_frozen_of hthawed hsame hkeeps.count (fun j name hj => hkeeps.impls j name hj) hpluginx
              (by rw [hkeeps.mounted, hmounted']) ((keeps_modify x i rfl rfl fun _ => hfrozen).mono fun j hj => hj.2) ?_
            simp [Frozen, state_modify, transition]
  · exact ⟨r, none, rfl, h, .refl⟩

/-- The unwinding of an active fiber ends, and leaves what is frozen alone. -/
theorem runs_unwind (hreconcile : Runs reconcile m) (h : Kept r) (hfree : r.free < m + 1) {i : Nat}
    (hactive : r.state i = .active) {state : FiberState} (hstate : state = .pending ∨ state = .disposed)
    (hmounted : r.mounted i = true ∨ state = .disposed) :
    ∃ x e, (r.transition i .unloading).settle reconcile i state = some (x, e) ∧ Kept x ∧ Keeps r.Frozen r x ∧
      x.state i = state := by
  have hi : i < r.count := h.lt_count (by simp [hactive])
  have hthawed : ¬ r.Frozen i := by simp [Frozen, hactive]
  have hless := free_transition hi hthawed (.inr rfl : FiberState.unloading = .loading ∨ _)
  have hplugin : (r.transition i .unloading).plugin i = r.plugin i := (plugin_modify r i i _).trans (if_pos rfl)
  have hmounted' : (r.transition i .unloading).mounted i = r.mounted i := (mounted_modify r i i _).trans (if_pos rfl)
  have hfrozen : (r.transition i .unloading).Frozen i := .inr ((state_modify r i i _).trans (if_pos rfl))
  have hsettles : state = .pending ∨ state = .failed ∨ state = .disposed := hstate.imp id .inr
  obtain ⟨x, e, hx, hkept, hkeeps, hstate'⟩ :=
    runs_settle hreconcile (h.beginUnload hactive) hfrozen (by omega) hsettles
    (hmounted'.symm ▸ hmounted)
  refine ⟨x, e, hx, hkept, keeps_frozen_of hthawed (keeps_transition r i .unloading) rfl (fun _ _ _ => Iff.rfl) hplugin
    hmounted' hkeeps ?_, hstate'⟩
  rcases hstate with rfl | rfl <;> simp [Frozen, hstate']

/-! ## Passes -/

/-- A loop whose actions end. -/
theorem runs_sweep {applies : PluginRegistry → Nat → Bool} {act : PluginRegistry → Nat → Option Outcome}
    (hact : ∀ r i, Kept r → r.free < m → applies r i = true →
      ∃ x e, act r i = some (x, e) ∧ Kept x ∧ Keeps r.Frozen r x) (fibers : List Nat) (h : Kept r) (hfree : r.free < m)
    (changed : Bool) : ∃ x changed' e, sweep applies act fibers r changed = some (x, changed', e) ∧ Kept x ∧
      Keeps r.Frozen r x := by
  induction fibers generalizing r changed with
  | nil => exact ⟨r, changed, none, rfl, h, .refl⟩
  | cons i fibers ih =>
    rw [sweep]
    split
    · next happlies =>
      obtain ⟨x, e, hx, hkept, hkeeps⟩ := hact r i h hfree happlies
      rw [hx]
      cases e with
      | none =>
        obtain ⟨y, changed', e', hy, hkept', hkeeps'⟩ := ih hkept (hkeeps.free ▸ hfree) true
        exact ⟨y, changed', e', hy, hkept', hkeeps.then hkeeps'⟩
      | some error => exact ⟨x, changed, some error, rfl, hkept, hkeeps⟩
    · exact ih h hfree changed

theorem runs_unload (hreconcile : Runs reconcile m) (h : Kept r) (hfree : r.free < m + 1) {i : Nat}
    (hthawed : ¬ r.Frozen i) : ∃ x e, r.unload reconcile i = some (x, e) ∧ Kept x ∧ Keeps r.Frozen r x := by
  rw [unload]
  split
  · next hlive =>
    have hactive : r.state i = .active := by
      cases hstate : r.state i <;> simp [hstate, FiberState.isLive, Frozen] at hlive hthawed ⊢
    obtain ⟨x, e, hx, hkept, hkeeps, -⟩ := runs_unwind hreconcile h hfree hactive (.inl rfl)
      (.inl (h.active i hactive).1)
    exact ⟨x, e, hx, hkept, hkeeps⟩
  · exact ⟨r, none, rfl, h, .refl⟩

theorem runs_pass (hreconcile : Runs reconcile m) (h : Kept r) (hfree : r.free < m + 1) :
    ∃ x changed e, r.pass reconcile = some (x, changed, e) ∧ Kept x ∧ Keeps r.Frozen r x := by
  have hunload (r : PluginRegistry) (i : Nat) (h : Kept r) (hfree : r.free < m + 1)
      (happlies : (r.state i == .active && !r.isSatisfied i) = true) :
      ∃ x e, r.unload reconcile i = some (x, e) ∧ Kept x ∧ Keeps r.Frozen r x := by
    simp only [Bool.and_eq_true, beq_iff_eq] at happlies
    exact runs_unload hreconcile h hfree (by simp [Frozen, happlies.1])
  have hload (r : PluginRegistry) (i : Nat) (h : Kept r) (hfree : r.free < m + 1)
      (_ : (r.state i == .pending && r.isSatisfied i) = true) :
      ∃ x e, r.load reconcile i true = some (x, e) ∧ Kept x ∧ Keeps r.Frozen r x := runs_load hreconcile h hfree i true
  obtain ⟨x, changed, e, hx, hkept, hkeeps⟩ := runs_sweep hunload r.mountedFibers h hfree false
  rw [pass, unloadSweep, hx]
  cases e with
  | none =>
    obtain ⟨y, changed', e', hy, hkept', hkeeps'⟩ :=
      runs_sweep hload x.mountedFibers hkept (hkeeps.free ▸ hfree) changed
    exact ⟨y, changed', e', hy, hkept', hkeeps.then hkeeps'⟩
  | some error => exact ⟨x, changed, some error, rfl, hkept, hkeeps⟩

theorem runs_passes (hreconcile : Runs reconcile m) (left : Nat) : Runs (passes reconcile left) (m + 1) := by
  induction left with
  | zero => exact fun r h _ => ⟨r, _, rfl, h, .refl⟩
  | succ left ih =>
    intro r h hfree
    obtain ⟨x, changed, e, hx, hkept, hkeeps⟩ := runs_pass hreconcile h hfree
    rw [passes, hx]
    cases e with
    | some error => exact ⟨x, some error, rfl, hkept, hkeeps⟩
    | none =>
      cases changed with
      | true =>
        obtain ⟨y, e', hy, hkept', hkeeps'⟩ := ih x hkept (hkeeps.free ▸ hfree)
        exact ⟨y, e', hy, hkept', hkeeps.then hkeeps'⟩
      | false => exact ⟨x, none, rfl, hkept, hkeeps⟩

/-- `reconcile` ends to any depth that is more than the free fibers. -/
theorem runs_reconcileWith (depth : Nat) : Runs (reconcileWith depth) depth := by
  induction depth with
  | zero => exact fun r _ hfree => absurd hfree (Nat.not_lt_zero _)
  | succ depth ih => exact runs_passes ih maxPasses

theorem free_lt_succ_count (r : PluginRegistry) : r.free < r.count + 1 := by
  refine Nat.lt_succ_of_le ((Finset.card_filter_le _ _).trans ?_)
  rw [Finset.card_range]

theorem runs_reconcile (h : Kept r) : ∃ x e, r.reconcile = some (x, e) ∧ Kept x ∧ Keeps r.Frozen r x :=
  runs_reconcileWith (r.count + 1) r h r.free_lt_succ_count

end PluginRegistry

end MinionAgent
