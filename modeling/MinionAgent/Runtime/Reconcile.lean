import MinionAgent.Runtime.RegistryFixes

/-!
# MinionAgent.Runtime.Reconcile

What `reconcile` reaches.

* `PluginRegistry.Settled` — what every run keeps;
* `reconcile_fixpoint_iff` — when `reconcile` loads the least fixpoint;
* `reconcile_unstable_without_cycle` — a chain that it gives up on.
-/

namespace MinionAgent

namespace PluginRegistry

variable {r x y : PluginRegistry} {reconcile : PluginRegistry → Option Outcome} {m : Nat}

/-! ## More passes than there are -/

/-- The passes from nothing loaded end before the nodes are reached whose
chains are too long. -/
theorem passes_unstable (hreconcile : Runs reconcile m) {i n : Nat} (left k : Nat) (hk : left + k = maxPasses)
    (h : Kept r) (hgood : Good r) (hfree : r.free < m + 1) (hsupported : r.offers.Supported r.activeSet)
    (hwithin : r.offers.Within k r.activeSet) (hi : i ∈ r.offers.loadable) (hchain : r.offers.Chain i n)
    (hn : maxPasses - 1 ≤ n) : ∃ x, passes reconcile left r = some (x, some .unstable) := by
  induction left generalizing r k with
  | zero => exact ⟨r, rfl⟩
  | succ left ih =>
    obtain ⟨x, changed, hx, hkept, hkeeps, hpresent, hsweep, hfalse, -⟩ :=
      pass_of_supported hreconcile h hgood hfree hsupported
    have hoffers := offers_congr hpresent hkeeps.plugin
    rw [passes, hx]
    cases changed with
    | false =>
      cases hfalse rfl
      rw [← hsupported.eq_loadable hsweep hgood.acyclic h.finite_present] at hi
      have hlt := (hwithin i hi).2 n hchain
      omega
    | true =>
      exact ih (k + 1) (by omega) hkept (hgood.congr hkeeps hpresent) (hkeeps.free ▸ hfree)
        (hoffers.symm ▸ hsupported.sweep hsweep) (hoffers.symm ▸ hwithin.sweep hsweep hgood.unique) (hoffers.symm ▸ hi)
        (hoffers.symm ▸ hchain)

/-! ## What every run keeps -/

/-- Between two calls, no fiber is loading or unloading. -/
structure Settled (r : PluginRegistry) : Prop where
  kept : Kept r
  thawed : ∀ i, ¬ r.Frozen i

theorem settled_initial : Settled {} where
  kept := ⟨nofun, by simp [state], by simp [provided], by simp [state], by simp [state, mounted]⟩
  thawed := by simp [Frozen, state]

theorem Settled.of_keeps (h : Settled r) (hkept : Kept x) (hkeeps : Keeps r.Frozen r x) : Settled x :=
  ⟨hkept, fun i hi => h.thawed i (hkeeps.thawed i hi)⟩

theorem runs_all (m : Nat) : Runs PluginRegistry.reconcile m := fun _ h _ => runs_reconcile h

theorem Settled.mount (h : Settled r) (plugin : PluginSpec) : Settled (r.mount plugin) := by
  have hfibers (j : Nat) : (r.mount plugin).fibers j =
      if j = r.count then { plugin, state := .pending, mounted := true } else r.fibers j :=
        Function.update_apply _ _ _ _
  have hcount := h.kept.bounded r.count (Nat.le_refl _)
  have hnew (name : String) : r.impls name ≠ some r.count := by
    intro hname
    rcases (h.kept.owner name r.count hname).2 with hactive | hfrozen
    · rw [hcount.1] at hactive
      cases hactive
    · exact h.thawed _ hfrozen
  have hthawed (j : Nat) : ¬ (r.mount plugin).Frozen j := by
    simp only [Frozen, state, hfibers]
    split
    · simp
    · exact h.thawed j
  refine ⟨⟨fun name j hj => ?_, fun j hj => ?_, fun j hj _ => ?_, fun j hj => ?_, fun j hj => ?_⟩, hthawed⟩
  · have hne : j ≠ r.count := fun heq => hnew name (heq ▸ hj)
    simp only [provided, state, Frozen, hfibers, if_neg hne]
    exact h.kept.owner name j hj
  · by_cases heq : j = r.count
    · simp [state, hfibers, heq] at hj
    · simp only [state, mounted, provided, PluginRegistry.plugin, hfibers, if_neg heq] at hj ⊢
      exact h.kept.active j hj
  · by_cases heq : j = r.count
    · simp [provided, hfibers, heq]
    · simp only [state, provided, hfibers, if_neg heq] at hj ⊢
      exact h.kept.idle j hj (h.thawed j)
  · by_cases heq : j = r.count
    · simp [mounted, hfibers, heq] at hj
    · simp only [mounted, state, Frozen, hfibers, if_neg heq] at hj ⊢
      exact h.kept.unmounted j hj
  · have hlt : r.count < j := hj
    simp only [state, mounted, hfibers, if_neg hlt.ne']
    exact h.kept.bounded j hlt.le

theorem modify_modify (r : PluginRegistry) (i : Nat) (f g : PluginFiber → PluginFiber) :
    (r.modify i f).modify i g = r.modify i fun fiber => g (f fiber) := by simp [modify]

/-- No service belongs to a fiber that is neither active nor frozen. -/
theorem Settled.not_owner (h : Settled r) {i : Nat} (hi : r.state i ≠ .active) (name : String) :
    r.impls name ≠ some i :=
  fun hname => (h.kept.owner name i hname).2.elim hi (h.thawed i)

/-- A fiber that is not active is disposed. -/
theorem Settled.modify_disposed (h : Settled r) {i : Nat} (hi : i < r.count) (hactive : r.state i ≠ .active)
    {f : PluginFiber → PluginFiber} (hstate : (f (r.fibers i)).state = .disposed)
    (hprovided : (f (r.fibers i)).provided = (r.fibers i).provided) : Settled (r.modify i f) := by
  refine ⟨h.kept.modify hi (by simp [hstate]) (fun name hname => absurd hname (h.not_owner hactive name))
    (.inr (.inr ?_))
    (.inr (.inl hstate)), fun j => ?_⟩
  · rw [hprovided]
    exact h.kept.idle i hactive (h.thawed i)
  · rw [Frozen, state_modify]
    split
    · simp [hstate]
    · exact h.thawed j

/-- `dispose`, of a fiber that may have been taken out of the registry. -/
theorem settled_dispose (h : Settled r) {i : Nat} (hi : i < r.count) {f : PluginFiber → PluginFiber}
    (hf : ∀ fiber, (f fiber).state = fiber.state ∧ (f fiber).provided = fiber.provided) :
    ∃ x e, (r.modify i f).dispose PluginRegistry.reconcile i = some (x, e) ∧ Settled x := by
  have hsame : (r.modify i f).state i = r.state i := by
    rw [state_modify, if_pos rfl, (hf _).1, state]
  rw [dispose, hsame]
  by_cases hdisposed : r.state i = .disposed
  · rw [if_pos hdisposed]
    refine ⟨_, none, rfl, h.modify_disposed hi (by simp [hdisposed]) ?_ (hf _).2⟩
    rw [(hf _).1]
    exact hdisposed
  · rw [if_neg hdisposed]
    by_cases hactive : r.state i = .active
    · rw [hactive, if_pos rfl, if_pos (show FiberState.active.isLive = true from rfl), transition, modify_modify]
      have hkept : Kept (r.modify i fun fiber => { f fiber with state := .unloading }) := by
        refine h.kept.modify hi (by simp) (fun name hname => ⟨?_, .inr rfl⟩) (.inr (.inl rfl)) (.inr (.inr (.inr rfl)))
        rw [show ({ f (r.fibers i) with state := .unloading } : PluginFiber).provided = r.provided i from (hf _).2]
        exact (h.kept.owner name i hname).1
      have hfrozen (j : Nat) : (r.modify i fun fiber => { f fiber with state := .unloading }).Frozen j ↔ j = i := by
        rw [Frozen, state_modify]
        by_cases heq : j = i
        · simp [heq]
        · simpa [heq, Frozen] using h.thawed j
      obtain ⟨x, e, hx, hkept', hkeeps, hstate⟩ := runs_settle (runs_all _) hkept ((hfrozen i).mpr rfl)
        (Nat.lt_succ_self _) (.inr (.inr rfl) : FiberState.disposed = .pending ∨ _) (.inr rfl)
      refine ⟨x, e, hx, hkept', fun j hj => ?_⟩
      obtain rfl := (hfrozen j).mp (hkeeps.thawed j hj)
      simp [Frozen, hstate] at hj
    · have hlive : (r.state i).isLive = false := by
        have hthawed := h.thawed i
        cases hstate : r.state i <;> simp [hstate, FiberState.isLive, Frozen] at hactive hthawed ⊢
      rw [hlive, if_neg Bool.false_ne_true, transition, modify_modify]
      exact ⟨_, none, rfl, h.modify_disposed hi hactive rfl (hf _).2⟩

theorem settled_step {call : Call} (h : Settled r) (hstep : r.step call = some x) : Settled x := by
  cases call with
  | mount plugin =>
    cases hstep
    exact h.mount plugin
  | reconcile =>
    obtain ⟨y, e, hy, hkept, hkeeps⟩ := runs_reconcile h.kept
    rw [step, hy] at hstep
    cases hstep
    exact h.of_keeps hkept hkeeps
  | load i =>
    rw [step] at hstep
    split at hstep
    · obtain ⟨y, e, hy, hkept, hkeeps⟩ := runs_load (runs_all _) h.kept (Nat.lt_succ_self _) i false
      rw [hy] at hstep
      cases hstep
      exact h.of_keeps hkept hkeeps
    · cases hstep
  | unload i =>
    rw [step] at hstep
    split at hstep
    · obtain ⟨y, e, hy, hkept, hkeeps⟩ := runs_unload (runs_all _) h.kept (Nat.lt_succ_self _) (h.thawed i)
      rw [hy] at hstep
      cases hstep
      exact h.of_keeps hkept hkeeps
    · cases hstep
  | dispose i =>
    rw [step] at hstep
    split at hstep
    · next hi =>
      obtain ⟨y, e, hy, hsettled⟩ := settled_dispose h hi (f := id) fun _ => ⟨rfl, rfl⟩
      rw [show r.modify i id = r by simp [modify]] at hy
      rw [hy] at hstep
      cases hstep
      exact hsettled
    · cases hstep
  | unmount i =>
    rw [step] at hstep
    split at hstep
    · next hi =>
      obtain ⟨y, e, hy, hsettled⟩ := settled_dispose h hi (f := fun fiber => { fiber with mounted := false })
        fun _ => ⟨rfl, rfl⟩
      rw [unmount, hy] at hstep
      cases e with
      | none =>
        obtain ⟨z, e, hz, hkept, hkeeps⟩ := runs_reconcile hsettled.kept
        simp only [hz] at hstep
        cases hstep
        exact hsettled.of_keeps hkept hkeeps
      | some error =>
        cases hstep
        exact hsettled
    · cases hstep

theorem settled_run {calls : List Call} (hrun : Transition.run step r calls = some x) (h : Settled r) : Settled x :=
  Transition.run_preserves (fun _ _ _ h hstep => settled_step h hstep) hrun h

/-! ## The least fixpoint -/

/-- The plugins of `_fibers`, with a gap for every fiber that is failed,
disposed or not mounted any more. -/
def mountedPlugins (r : PluginRegistry) : List (Option PluginSpec) :=
  (List.range r.count).map fun i => if r.Present i then some (r.plugin i) else none

/-- What plugins inject and provide. -/
def offersOf (plugins : List (Option PluginSpec)) : Sweep.Offers Nat String where
  node i := ∃ plugin, plugins[i]? = some (some plugin)
  inject i name := ∃ plugin, plugins[i]? = some (some plugin) ∧ name ∈ plugin.inject
  provides i name := ∃ plugin, plugins[i]? = some (some plugin) ∧ name ∈ plugin.provides

/-- `reconcile` raises nothing; of the fibers neither failed nor disposed, those
are active whose services resolve, and they are the least fixpoint. -/
def Reconciles (r : PluginRegistry) : Prop :=
  ∃ x, r.reconcile = some (x, none) ∧ x.mountedPlugins = r.mountedPlugins ∧
    (∀ i, x.mounted i = true → x.state i ≠ .failed → x.state i ≠ .disposed →
      (x.state i = .active ↔ x.isSatisfied i = true)) ∧
    x.activeSet = (offersOf x.mountedPlugins).loadable

theorem Kept.getElem?_mountedPlugins (h : Kept r) {i : Nat} {plugin : PluginSpec} :
    r.mountedPlugins[i]? = some (some plugin) ↔ r.Present i ∧ r.plugin i = plugin := by
  rw [mountedPlugins, List.getElem?_map, Option.map_eq_some_iff]
  constructor
  · rintro ⟨j, hj, hsome⟩
    obtain ⟨hlt, rfl⟩ := List.getElem?_eq_some_iff.mp hj
    rw [List.getElem_range] at hsome
    split at hsome
    · next hpresent => exact ⟨hpresent, Option.some.inj hsome⟩
    · cases hsome
  · rintro ⟨hpresent, rfl⟩
    have hlt : i < r.count := h.lt_count (by rcases hpresent.2 with hi | hi <;> simp [hi])
    exact ⟨i, by simp [hlt], if_pos hpresent⟩

theorem Kept.offersOf_mountedPlugins (h : Kept r) : offersOf r.mountedPlugins = r.offers := by
  simp only [offersOf, offers, h.getElem?_mountedPlugins]
  congr 1 <;> grind

theorem mountedPlugins_congr (hcount : x.count = r.count) (hpresent : ∀ i, x.Present i ↔ r.Present i)
    (hplugin : ∀ i, x.plugin i = r.plugin i) : x.mountedPlugins = r.mountedPlugins := by
  simp only [mountedPlugins, hcount, hpresent, hplugin]

/-- The fibers of a settled registry are good where their plugins are. -/
theorem Settled.good (h : Settled r) (hnodup : ∀ plugin, some plugin ∈ r.mountedPlugins → plugin.provides.Nodup)
    (hunique : (offersOf r.mountedPlugins).Unique) (hacyclic : (offersOf r.mountedPlugins).Acyclic) : Good r where
  unique := h.kept.offersOf_mountedPlugins ▸ hunique
  nodup _ hi := hnodup _ (List.mem_of_getElem? (h.kept.getElem?_mountedPlugins.mpr ⟨hi, rfl⟩))
  acyclic := h.kept.offersOf_mountedPlugins ▸ hacyclic
  apart _ j _ _ _ _ := h.thawed j

theorem Settled.reconciles (h : Settled r) (hgood : Good r) (hbounded : r.offers.Bounded (maxPasses - 1)) :
    r.Reconciles := by
  obtain ⟨x, hx, hkept, hkeeps, hpresent, hactive⟩ :=
    fixes_reconcileWith (r.count + 1) r h.kept hgood hbounded r.free_lt_succ_count
  have hsettled := h.of_keeps hkept hkeeps
  have hoffers := offers_congr hpresent hkeeps.plugin
  refine ⟨x, hx, mountedPlugins_congr hkeeps.count hpresent hkeeps.plugin, fun i _ hfailed hdisposed => ?_, ?_⟩
  · have hpresent' : x.Present i := by
      refine hkept.present.mpr ?_
      have hthawed := hsettled.thawed i
      cases hstate : x.state i <;> simp [hstate, Frozen] at hfailed hdisposed hthawed ⊢
    rw [hkept.isSatisfied_iff hpresent', hactive, hoffers]
    have hmem : x.state i = .active ↔ i ∈ r.offers.loadable := by
      rw [← hactive]
      exact Iff.rfl
    rw [hmem, Sweep.Offers.mem_loadable]
    exact and_iff_right ((hpresent i).mp hpresent')
  · rw [hkept.offersOf_mountedPlugins, hactive, hoffers]

theorem mountedPlugins_succ (hcount : x.count = r.count + 1) (hfibers : ∀ j, j < r.count → x.fibers j = r.fibers j) :
    x.mountedPlugins = r.mountedPlugins ++ [if x.Present r.count then some (x.plugin r.count) else none] := by
  rw [mountedPlugins, mountedPlugins, hcount, List.range_succ, List.map_append, List.map_singleton]
  congr 1
  refine List.map_congr_left fun j hj => ?_
  have hsame := hfibers j (List.mem_range.mp hj)
  have hpresent : x.Present j ↔ r.Present j := by simp only [Present, mounted, state, hsame]
  simp only [hpresent, PluginRegistry.plugin, hsame]

/-- Any plugins can be mounted before `reconcile` is called, with gaps where
fibers were disposed. -/
theorem exists_fresh (plugins : List (Option PluginSpec)) : ∃ (calls : List Call) (r : PluginRegistry),
    Transition.run step {} calls = some r ∧ r.mountedPlugins = plugins ∧ r.activeSet = ∅ := by
  induction plugins using List.reverseRecOn with
  | nil => exact ⟨[], {}, rfl, rfl, by simp [activeSet, state]⟩
  | append_singleton plugins plugin ih =>
    obtain ⟨calls, r, hrun, rfl, hactive⟩ := ih
    have hidle (j : Nat) : r.state j ≠ .active := fun hj => (hactive ▸ hj : j ∈ (∅ : Set Nat))
    have hfibers (spec : PluginSpec) (j : Nat) : (r.mount spec).fibers j =
        if j = r.count then { plugin := spec, state := .pending, mounted := true } else r.fibers j :=
          Function.update_apply _ _ _ _
    cases plugin with
    | some spec =>
      refine ⟨calls ++ [.mount spec], r.mount spec, Transition.run_append.mpr ⟨r, hrun, rfl⟩, ?_, ?_⟩
      · rw [mountedPlugins_succ rfl fun j hj => by rw [hfibers, if_neg hj.ne], if_pos]
        · simp [PluginRegistry.plugin, hfibers]
        · simp [Present, mounted, state, hfibers]
      · refine Set.eq_empty_of_forall_notMem fun j hj => ?_
        have hj : (r.mount spec).state j = .active := hj
        rw [state, hfibers] at hj
        split at hj
        · cases hj
        · exact hidle j hj
    | none =>
      have hpending : (r.mount ⟨[], []⟩).state r.count = .pending := by simp [state, hfibers]
      refine ⟨calls ++ [.mount ⟨[], []⟩, .dispose r.count], (r.mount ⟨[], []⟩).transition r.count .disposed,
        Transition.run_append.mpr ⟨r, hrun,
          Transition.run_cons.mpr ⟨_, rfl, Transition.run_cons.mpr ⟨_, ?_, rfl⟩⟩⟩, ?_, ?_⟩
      · rw [step, if_pos (show r.count < (r.mount ⟨[], []⟩).count from Nat.lt_succ_self r.count), dispose, hpending]
        rfl
      · rw [mountedPlugins_succ rfl fun j hj => ?_, if_neg]
        · simp [Present, transition, state_modify]
        · rw [transition, fibers_modify_ne _ hj.ne, hfibers, if_neg hj.ne]
      · refine Set.eq_empty_of_forall_notMem fun j hj => ?_
        have hj : ((r.mount ⟨[], []⟩).transition r.count .disposed).state j = .active := hj
        rw [transition, state_modify] at hj
        split at hj
        · cases hj
        · next hne =>
          rw [state, hfibers, if_neg hne] at hj
          exact hidle j hj

/-- From nothing loaded, a chain that goes to a later plugin too often is not
loaded. -/
theorem not_reconciles_of_chain (h : Settled r) (hgood : Good r) (hactive : r.activeSet = ∅) {i n : Nat}
    (hi : i ∈ r.offers.loadable) (hchain : r.offers.Chain i n) (hn : maxPasses - 1 ≤ n) : ¬ r.Reconciles := by
  rintro ⟨x, hx, -⟩
  obtain ⟨y, hy⟩ := passes_unstable (runs_reconcileWith r.count) maxPasses 0 rfl h.kept hgood r.free_lt_succ_count
    (by rw [hactive]; exact Set.empty_subset _) (by rw [hactive]; exact Sweep.Offers.within_zero) hi hchain hn
  have hsame : some (x, none) = some (y, some ReconcileError.unstable) := hx.symm.trans hy
  cases hsame

/-- `reconcile` loads the least fixpoint from every state that fibers of these
plugins can be in, if and only if no chain of injected services among those
that can be loaded goes to a plugin mounted later as often as there are passes
before the last. -/
theorem reconcile_fixpoint_iff (plugins : List (Option PluginSpec))
    (hnodup : ∀ plugin, some plugin ∈ plugins → plugin.provides.Nodup) (hunique : (offersOf plugins).Unique)
    (hacyclic : (offersOf plugins).Acyclic) :
    (∀ (calls : List Call) (r : PluginRegistry), Transition.run step {} calls = some r → r.mountedPlugins = plugins →
      r.Reconciles) ↔
    (offersOf plugins).Bounded (maxPasses - 1) := by
  constructor
  · intro hall i hi n hchain
    by_contra hn
    obtain ⟨calls, r, hrun, rfl, hactive⟩ := exists_fresh plugins
    have hsettled := settled_run hrun settled_initial
    have hoffers := hsettled.kept.offersOf_mountedPlugins
    rw [hoffers] at hi hchain
    exact not_reconciles_of_chain hsettled (hsettled.good hnodup hunique hacyclic) hactive hi hchain (by omega)
      (hall calls r hrun rfl)
  · rintro hbounded calls r hrun rfl
    have hsettled := settled_run hrun settled_initial
    refine hsettled.reconciles (hsettled.good hnodup hunique hacyclic) ?_
    rw [← hsettled.kept.offersOf_mountedPlugins]
    exact hbounded

/-- A plugin mounted before the one it needs. -/
theorem reconcile_fixpoint_of_pair : ∃ (calls : List Call) (r : PluginRegistry), Transition.run step {} calls = some r ∧
    r.mountedPlugins = [some ⟨["tools"], []⟩, some ⟨[], ["tools"]⟩] ∧ r.Reconciles := by
  have hneeds (i j : Nat) (h : (offersOf [some ⟨["tools"], []⟩, some ⟨[], ["tools"]⟩]).Needs i j) : i = 0 ∧ j = 1 := by
    obtain ⟨-, -, name, ⟨p, hp, hname⟩, q, hq, hname'⟩ := h
    rcases i with _ | _ | i
    · rcases j with _ | _ | j
      · cases hq; cases hname'
      · exact ⟨rfl, rfl⟩
      · cases hq
    · cases hp; cases hname
    · cases hp
  have hbounded : (offersOf [some ⟨["tools"], []⟩, some ⟨[], ["tools"]⟩]).Bounded (maxPasses - 1) := by
    intro i _ n hchain
    rw [show maxPasses - 1 = 99 from rfl]
    cases hchain with
    | nil => decide
    | early hfirst hlt _ =>
      obtain ⟨rfl, rfl⟩ := hneeds _ _ hfirst
      cases hlt
    | late hfirst _ htail =>
      obtain ⟨rfl, rfl⟩ := hneeds _ _ hfirst
      cases htail with
      | nil => decide
      | early hsecond _ _ => cases (hneeds _ _ hsecond).1
      | late hsecond _ _ => cases (hneeds _ _ hsecond).1
  refine ⟨[.mount ⟨["tools"], []⟩, .mount ⟨[], ["tools"]⟩], _, rfl, rfl, ?_⟩
  refine (reconcile_fixpoint_iff [some ⟨["tools"], []⟩, some ⟨[], ["tools"]⟩] (fun plugin hplugin => ?_)
    (fun i j name _ _ hi hj => ?_)
    (Sweep.Offers.acyclic_of_lt fun i j h => ?_)).mpr hbounded [.mount ⟨["tools"], []⟩, .mount ⟨[], ["tools"]⟩] _
      rfl rfl
  · simp only [List.mem_cons, Option.some.injEq, List.not_mem_nil, or_false] at hplugin
    rcases hplugin with rfl | rfl
    · exact List.nodup_nil
    · exact List.nodup_singleton _
  · obtain ⟨p, hp, hname⟩ := hi
    obtain ⟨q, hq, hname'⟩ := hj
    rcases i with _ | _ | i
    · cases hp; cases hname
    · rcases j with _ | _ | j
      · cases hq; cases hname'
      · rfl
      · cases hq
    · cases hp
  · obtain ⟨rfl, rfl⟩ := hneeds i j h
    exact Nat.zero_lt_one

/-- A service of a chain of plugins. -/
def chainService (i : Nat) : String := String.ofList (List.replicate i 's')

/-- Plugins that each need the service of the next one. -/
def chainOf (n : Nat) : List (Option PluginSpec) :=
  (List.range n).map fun i => some ⟨if i + 1 < n then [chainService (i + 1)] else [], [chainService i]⟩

theorem chainService_inj {i j : Nat} (h : chainService i = chainService j) : i = j := by
  have hlength := congrArg List.length (String.ofList_injective h)
  simpa using hlength

theorem getElem?_chainOf {n i : Nat} {plugin : PluginSpec} (h : (chainOf n)[i]? = some (some plugin)) :
    i < n ∧ plugin = ⟨if i + 1 < n then [chainService (i + 1)] else [], [chainService i]⟩ := by
  rw [chainOf, List.getElem?_map, Option.map_eq_some_iff] at h
  obtain ⟨j, hj, hplugin⟩ := h
  obtain ⟨hlt, hij⟩ := List.getElem?_eq_some_iff.mp hj
  rw [List.getElem_range] at hij
  subst hij
  exact ⟨by simpa using hlt, (Option.some.inj hplugin).symm⟩

theorem getElem?_chainOf_of_lt {n i : Nat} (hi : i < n) :
    (chainOf n)[i]? = some (some ⟨if i + 1 < n then [chainService (i + 1)] else [], [chainService i]⟩) := by
  rw [chainOf, List.getElem?_map, List.getElem?_range hi]
  rfl

theorem needs_chainOf {n i j : Nat} (h : (offersOf (chainOf n)).Needs i j) : j = i + 1 := by
  obtain ⟨-, -, name, ⟨p, hp, hname⟩, q, hq, hname'⟩ := h
  obtain ⟨hi, rfl⟩ := getElem?_chainOf hp
  obtain ⟨hj, rfl⟩ := getElem?_chainOf hq
  simp only at hname hname'
  split at hname
  · rw [List.mem_singleton] at hname hname'
    exact (chainService_inj (hname.symm.trans hname')).symm
  · cases hname

theorem needs_succ_chainOf {n i : Nat} (hi : i + 1 < n) : (offersOf (chainOf n)).Needs i (i + 1) := by
  have hfirst := getElem?_chainOf_of_lt (Nat.lt_of_succ_lt hi)
  rw [if_pos hi] at hfirst
  exact ⟨⟨_, hfirst⟩, ⟨_, getElem?_chainOf_of_lt hi⟩, chainService (i + 1), ⟨_, hfirst, List.mem_cons_self⟩, _,
    getElem?_chainOf_of_lt hi, List.mem_cons_self⟩

theorem loadable_chainOf {n left i : Nat} (hi : i + left + 1 = n) : i ∈ (offersOf (chainOf n)).loadable := by
  induction left generalizing i with
  | zero =>
    have hlast : ¬ i + 1 < n := by omega
    refine Sweep.Offers.mem_loadable.mpr ⟨⟨_, getElem?_chainOf_of_lt (by omega)⟩, ?_⟩
    rintro name ⟨p, hp, hname⟩
    obtain ⟨-, rfl⟩ := getElem?_chainOf hp
    simp only [if_neg hlast] at hname
    cases hname
  | succ left ih =>
    refine Sweep.Offers.mem_loadable.mpr ⟨⟨_, getElem?_chainOf_of_lt (by omega)⟩, ?_⟩
    rintro name ⟨p, hp, hname⟩
    obtain ⟨-, rfl⟩ := getElem?_chainOf hp
    simp only [if_pos (show i + 1 < n by omega), List.mem_singleton] at hname
    exact ⟨i + 1, ih (by omega), _, getElem?_chainOf_of_lt (by omega), by rw [hname]; exact List.mem_cons_self⟩

theorem chain_chainOf {n left i : Nat} (hi : i + left + 1 = n) : (offersOf (chainOf n)).Chain i left := by
  induction left generalizing i with
  | zero => exact .nil i
  | succ left ih => exact .late (needs_succ_chainOf (by omega)) (Nat.lt_succ_self i) (ih (by omega))

/-- A hundred plugins mounted in reverse order are not all loaded. -/
theorem reconcile_unstable_without_cycle : ¬ ∀ plugins : List (Option PluginSpec),
    (∀ plugin, some plugin ∈ plugins → plugin.provides.Nodup) → (offersOf plugins).Unique → (offersOf plugins).Acyclic →
    ∀ (calls : List Call) (r : PluginRegistry), Transition.run step {} calls = some r → r.mountedPlugins = plugins →
      r.Reconciles := by
  intro hall
  have hnodup : ∀ plugin, some plugin ∈ chainOf 100 → plugin.provides.Nodup := by
    intro plugin hplugin
    obtain ⟨i, hi⟩ := List.mem_iff_getElem?.mp hplugin
    obtain ⟨-, rfl⟩ := getElem?_chainOf hi
    exact List.nodup_singleton _
  have hunique : (offersOf (chainOf 100)).Unique := by
    rintro i j name - - ⟨p, hp, hname⟩ ⟨q, hq, hname'⟩
    obtain ⟨-, rfl⟩ := getElem?_chainOf hp
    obtain ⟨-, rfl⟩ := getElem?_chainOf hq
    rw [List.mem_singleton] at hname hname'
    exact chainService_inj (hname.symm.trans hname')
  have hacyclic : (offersOf (chainOf 100)).Acyclic :=
    Sweep.Offers.acyclic_of_lt fun i j h => by rw [needs_chainOf h]; exact Nat.lt_succ_self i
  obtain ⟨calls, r, hrun, hplugins, hactive⟩ := exists_fresh (chainOf 100)
  have hsettled := settled_run hrun settled_initial
  have hoffers := hsettled.kept.offersOf_mountedPlugins
  rw [hplugins] at hoffers
  have hgood : Good r := hsettled.good (hplugins ▸ hnodup) (hplugins ▸ hunique) (hplugins ▸ hacyclic)
  have hloadable : 0 ∈ (offersOf (chainOf 100)).loadable := loadable_chainOf (show 0 + 99 + 1 = 100 from rfl)
  have hchain : (offersOf (chainOf 100)).Chain 0 99 := chain_chainOf (show 0 + 99 + 1 = 100 from rfl)
  exact not_reconciles_of_chain hsettled hgood hactive (hoffers ▸ hloadable) (hoffers ▸ hchain) (Nat.le_refl _)
    (hall _ hnodup hunique hacyclic calls r hrun hplugins)

end PluginRegistry

end MinionAgent
