import MinionAgent.Library.Sweep
import MinionAgent.Runtime.RegistryRuns

/-!
# MinionAgent.Runtime.RegistryFixes

Calls that load the least fixpoint of what the fibers offer.

* `PluginRegistry.offers` — what the fibers present inject and provide;
* `PluginRegistry.Fixes` — calls with so many free fibers load the least
  fixpoint;
* `PluginRegistry.fixes_reconcileWith` — `reconcile` does.
-/

namespace MinionAgent

namespace PluginRegistry

variable {r x y : PluginRegistry} {reconcile : PluginRegistry → Option Outcome} {m : Nat}

/-! ## What the fibers offer -/

/-- A fiber is mounted, and neither failed, disposed nor frozen. -/
def Present (r : PluginRegistry) (i : Nat) : Prop := r.mounted i = true ∧ (r.state i = .pending ∨ r.state i = .active)

instance (r : PluginRegistry) : DecidablePred r.Present := fun _ => inferInstanceAs (Decidable (_ ∧ _))

/-- What the fibers present inject and provide. -/
def offers (r : PluginRegistry) : Sweep.Offers Nat String where
  node := r.Present
  inject i name := r.Present i ∧ name ∈ (r.plugin i).inject
  provides i name := r.Present i ∧ name ∈ (r.plugin i).provides

/-- The fibers in state ACTIVE. -/
def activeSet (r : PluginRegistry) : Set Nat := {i | r.state i = .active}

/-- The fibers present have services of their own, and need each other without
a cycle. -/
structure Good (r : PluginRegistry) : Prop where
  unique : r.offers.Unique
  nodup : ∀ i, r.Present i → (r.plugin i).provides.Nodup
  acyclic : r.offers.Acyclic
  apart : ∀ i j name, r.Present i → name ∈ (r.plugin i).provides → r.impls name = some j → ¬ r.Frozen j

theorem Kept.present (h : Kept r) {i : Nat} : r.Present i ↔ r.state i = .pending ∨ r.state i = .active := by
  refine ⟨And.right, fun hi => ⟨h.mounted_of_state ?_ ?_, hi⟩⟩
  · rcases hi with hi | hi <;> simp [hi]
  · rcases hi with hi | hi <;> simp [Frozen, hi]

theorem Kept.present_of_active (h : Kept r) {i : Nat} (hi : r.state i = .active) : r.Present i :=
  h.present.mpr (.inr hi)

theorem Kept.finite_present (h : Kept r) : {i | r.offers.node i}.Finite := by
  refine (Set.finite_lt_nat r.count).subset fun i hi => h.lt_count ?_
  rcases hi.2 with hi | hi <;> simp [hi]

theorem offers_congr (hpresent : ∀ i, x.Present i ↔ r.Present i) (hplugin : ∀ i, x.plugin i = r.plugin i) :
    x.offers = r.offers := by
  simp only [offers, hplugin, hpresent]
  congr 1
  exact funext fun i => propext (hpresent i)

theorem Kept.has_iff (h : Kept r) {name : String} :
    r.has name = true ↔ ∃ j ∈ r.activeSet, r.offers.provides j name := by
  rw [has]
  constructor
  · intro hhas
    split at hhas
    · next j hj =>
      have hactive : r.state j = .active := by simpa using hhas
      refine ⟨j, hactive, h.present_of_active hactive, ?_⟩
      rw [← (h.active j hactive).2.1]
      exact (h.owner name j hj).1
    · cases hhas
  · rintro ⟨j, hj, -, hprovides⟩
    have hactive : r.state j = .active := hj
    rw [(h.active j hactive).2.2 name hprovides]
    simpa using hactive

theorem Kept.isSatisfied_iff (h : Kept r) {i : Nat} (hi : r.Present i) :
    r.isSatisfied i = true ↔ r.offers.Satisfied r.activeSet i := by
  rw [isSatisfied, List.all_eq_true]
  constructor
  · exact fun hall name hname => h.has_iff.mp (hall name hname.2)
  · exact fun hall name hname => h.has_iff.mpr (hall name ⟨hi, hname⟩)

theorem sub_of_present (hpresent : ∀ i, x.Present i → r.Present i) (hplugin : ∀ i, x.plugin i = r.plugin i) :
    x.offers.Sub r.offers where
  node := hpresent
  inject i name hi := by
    simp only [offers, hplugin]
    exact ⟨fun h => ⟨hpresent i hi, h.2⟩, fun h => ⟨hi, h.2⟩⟩
  provides i name h := by
    simp only [offers, hplugin] at h ⊢
    exact ⟨hpresent i h.1, h.2⟩

theorem Good.congr (h : Good r) (hkeeps : Keeps r.Frozen r x) (hpresent : ∀ i, x.Present i ↔ r.Present i) : Good x := by
  have hoffers := offers_congr hpresent hkeeps.plugin
  refine ⟨hoffers ▸ h.unique, fun i hi => ?_, hoffers ▸ h.acyclic, fun i j name hi hname hj hfrozen => ?_⟩
  · rw [hkeeps.plugin]
    exact h.nodup i ((hpresent i).mp hi)
  · rw [hkeeps.plugin] at hname
    have hfrozen' := hkeeps.thawed j hfrozen
    exact h.apart i j name ((hpresent i).mp hi) hname ((hkeeps.impls j name hfrozen').mp hj) hfrozen'

/-! ## Calls that reach the least fixpoint -/

/-- Calls with so many free fibers load the least fixpoint. -/
def Fixes (reconcile : PluginRegistry → Option Outcome) (m : Nat) : Prop :=
  ∀ r, Kept r → Good r → r.offers.Bounded (maxPasses - 1) → r.free < m →
    ∃ x, reconcile r = some (x, none) ∧ Kept x ∧ Keeps r.Frozen r x ∧ (∀ i, x.Present i ↔ r.Present i) ∧
      x.activeSet = r.offers.loadable

theorem present_congr (hfibers : x.fibers = r.fibers) (i : Nat) : x.Present i ↔ r.Present i := by
  simp only [Present, mounted, state, hfibers]

theorem Good.revoke (h : Good r) (i : Nat) (name : String) : Good (r.revoke i name) := by
  have hfibers := fibers_revoke r i name
  have hplugin (j : Nat) : (r.revoke i name).plugin j = r.plugin j := by rw [plugin, plugin, hfibers]
  have hoffers : (r.revoke i name).offers = r.offers := offers_congr (present_congr hfibers) hplugin
  refine ⟨hoffers ▸ h.unique, fun j hj => ?_, hoffers ▸ h.acyclic, fun j k name' hj hname' hk hfrozen => ?_⟩
  · rw [hplugin]
    exact h.nodup j ((present_congr hfibers j).mp hj)
  · rw [hplugin] at hname'
    exact h.apart j k name' ((present_congr hfibers j).mp hj) hname' ((impls_revoke r i name name' k).mp hk).1
      ((frozen_congr hfibers k).mp hfrozen)

theorem fixes_disposeAll (hfixes : Fixes reconcile m) {i : Nat} (names : List String) (h : Kept r) (hgood : Good r)
    (hbounded : r.offers.Bounded (maxPasses - 1)) (hi : r.Frozen i) (hfree : r.free < m) :
    ∃ x, disposeAll reconcile i names r = some (x, []) ∧ (∀ j, x.Present j ↔ r.Present j) ∧
      (names = [] → x = r) ∧ (names ≠ [] → x.activeSet = r.offers.loadable) := by
  induction names generalizing r with
  | nil => exact ⟨r, rfl, fun _ => Iff.rfl, fun _ => rfl, fun hne => absurd rfl hne⟩
  | cons name names ih =>
    have hfibers := fibers_revoke r i name
    have hplugin (j : Nat) : (r.revoke i name).plugin j = r.plugin j := by rw [plugin, plugin, hfibers]
    have hoffers : (r.revoke i name).offers = r.offers := offers_congr (present_congr hfibers) hplugin
    have hfrozen (j : Nat) : (r.revoke i name).Frozen j ↔ r.Frozen j := frozen_congr hfibers j
    have hfree' : (r.revoke i name).free < m := (free_congr (count_revoke r i name) hfrozen).symm ▸ hfree
    obtain ⟨x, hx, hkept, hkeeps, hpresent, hactive⟩ := hfixes _ (h.revoke hi name) (hgood.revoke i name)
      (hoffers.symm ▸ hbounded) hfree'
    have hoffersx : x.offers = r.offers := (offers_congr hpresent hkeeps.plugin).trans hoffers
    obtain ⟨y, hy, hpresent', hnil, hcons⟩ := ih hkept ((hgood.revoke i name).congr hkeeps hpresent)
      (hoffersx.symm ▸ hbounded) ((hkeeps.frozen_iff i).mpr ((hfrozen i).mpr hi)) (hkeeps.free ▸ hfree')
    refine ⟨y, ?_, fun j => (hpresent' j).trans ((hpresent j).trans (present_congr hfibers j)),
      (by simp), fun _ => ?_⟩
    · rw [disposeAll, hx]
      simp only [hy]
      rfl
    · rw [← hoffersx]
      by_cases hempty : names = []
      · rw [hnil hempty, hactive, hoffersx, hoffers]
      · exact hcons hempty

/-- Fewer fibers are present while one is unwound. -/
theorem Good.beginUnload (h : Good r) (hkept : Kept r) {i : Nat} (hi : r.state i = .active) :
    Good (r.transition i .unloading) ∧ (r.transition i .unloading).offers.Sub r.offers := by
  have hpresent (j : Nat) (hj : (r.transition i .unloading).Present j) : j ≠ i ∧ r.Present j := by
    simp only [Present, transition, state_modify, mounted_modify] at hj
    by_cases heq : j = i
    · simp [heq] at hj
    · simp only [if_neg heq] at hj
      exact ⟨heq, hj⟩
  have hplugin (j : Nat) : (r.transition i .unloading).plugin j = r.plugin j := by
    rw [transition, plugin_modify]
    split
    · next heq => rw [heq, plugin]
    · rfl
  have hsub := sub_of_present (fun j hj => (hpresent j hj).2) hplugin
  refine ⟨⟨hsub.unique h.unique, fun j hj => ?_, hsub.acyclic h.acyclic, fun j k name hj hname hk hfrozen => ?_⟩, hsub⟩
  · rw [hplugin]
    exact h.nodup j (hpresent j hj).2
  · rw [hplugin] at hname
    by_cases heq : k = i
    · subst heq
      have hin := (hkept.owner name k hk).1
      rw [(hkept.active k hi).2.1] at hin
      have hpresent' := hkept.present_of_active hi
      exact (hpresent j hj).1 (h.unique j k name (hpresent j hj).2 hpresent' ⟨(hpresent j hj).2, hname⟩
        ⟨hpresent', hin⟩)
    · simp only [Frozen, transition, state_modify, if_neg heq] at hfrozen
      exact h.apart j k name (hpresent j hj).2 hname hk hfrozen

/-- An unload loads what does not depend on the fiber, and without services
leaves the others alone. -/
theorem fixes_unload (hreconcile : Runs reconcile m) (hfixes : Fixes reconcile m) (h : Kept r) (hgood : Good r)
    (hbounded : r.offers.Bounded (maxPasses - 1)) (hfree : r.free < m + 1) {i : Nat} (hi : r.state i = .active) :
    ∃ x, r.unload reconcile i = some (x, none) ∧ Kept x ∧ Keeps r.Frozen r x ∧ (∀ j, x.Present j ↔ r.Present j) ∧
      ((r.plugin i).provides = [] → ∀ j, j ∈ x.activeSet ↔ j ≠ i ∧ j ∈ r.activeSet) ∧
      ((r.plugin i).provides ≠ [] → x.offers.Supported x.activeSet) := by
  have hlt : i < r.count := h.lt_count (by simp [hi])
  have hthawed : ¬ r.Frozen i := by simp [Frozen, hi]
  have hless := free_transition hlt hthawed (.inr rfl : FiberState.unloading = .loading ∨ _)
  have hfrozen : (r.transition i .unloading).Frozen i := .inr ((state_modify r i i _).trans (if_pos rfl))
  obtain ⟨hgood', hsub⟩ := hgood.beginUnload h hi
  have hprovided : (r.transition i .unloading).provided i = (r.plugin i).provides :=
    ((provided_modify r i i _).trans (if_pos rfl)).trans (h.active i hi).2.1
  obtain ⟨x, hx, hpresent, hnil, hcons⟩ := fixes_disposeAll hfixes ((r.transition i .unloading).provided i).reverse
    (h.beginUnload hi) hgood' (hsub.bounded hbounded) hfrozen (by omega)
  obtain ⟨x', errors, hx', -, hkeeps, hfiber, -⟩ := runs_disposeAll hreconcile
    ((r.transition i .unloading).provided i).reverse (h.beginUnload hi) hfrozen (by omega)
  rw [hx] at hx'
  cases hx'
  obtain ⟨y, e, hy, hkepty, hkeepsy, -⟩ :=
    runs_unwind hreconcile h hfree hi (.inl rfl : FiberState.pending = .pending ∨ _)
    (.inl (h.active i hi).1)
  have hy' : y = (x.modify i fun f => { f with provided := [], state := .pending }) ∧ e = none := by
    rw [settle, hx] at hy
    cases hy
    exact ⟨rfl, rfl⟩
  obtain ⟨rfl, rfl⟩ := hy'
  have hstate (j : Nat) (hj : j ≠ i) :
      (x.modify i fun f => { f with provided := [], state := .pending }).state j = x.state j := by
    rw [state_modify, if_neg hj]
  have hstatei : (x.modify i fun f => { f with provided := [], state := .pending }).state i = .pending := by
    rw [state_modify, if_pos rfl]
  have hpresent' (j : Nat) : (x.modify i fun f => { f with provided := [], state := .pending }).Present j ↔
      r.Present j := by
    by_cases heq : j = i
    · subst heq
      exact ⟨fun _ => h.present_of_active hi, fun _ => hkepty.present.mpr (.inl hstatei)⟩
    · have hx : (x.modify i fun f => { f with provided := [], state := .pending }).Present j ↔ x.Present j := by
        rw [Present, Present, mounted_modify, state_modify, if_neg heq, if_neg heq]
      have hr : (r.transition i .unloading).Present j ↔ r.Present j := by
        rw [Present, Present, transition, mounted_modify, state_modify, if_neg heq, if_neg heq]
      exact hx.trans ((hpresent j).trans hr)
  have hisolated (j : Nat) : j ∈ (x.modify i fun f => { f with provided := [], state := .pending }).activeSet ↔
      j ≠ i ∧ j ∈ x.activeSet := by
    by_cases heq : j = i
    · subst heq
      simp [activeSet, hstatei]
    · simp [activeSet, hstate j heq, heq]
  refine ⟨_, by rw [unload, hi]; exact hy, hkepty, hkeepsy, hpresent', fun hempty j => ?_, fun hne => ?_⟩
  · rw [hisolated]
    rw [hprovided, hempty] at hnil
    rw [hnil rfl]
    refine and_congr_right fun hj => ?_
    simp [activeSet, transition, state_modify, hj]
  · rw [hprovided] at hcons
    have hactive := hcons (by simpa using hne)
    have hnot : i ∉ x.activeSet := by
      have hstill : x.state i = .unloading := by
        rw [state, hfiber]
        exact (state_modify r i i _).trans (if_pos rfl)
      simp [activeSet, hstill]
    have hsame : (x.modify i fun f => { f with provided := [], state := .pending }).activeSet =
        (r.transition i .unloading).offers.loadable := by
      rw [← hactive]
      ext j
      rw [hisolated]
      exact ⟨And.right, fun hj => ⟨fun heq => hnot (heq ▸ hj), hj⟩⟩
    rw [hsame, offers_congr hpresent' hkeepsy.plugin]
    intro j hj
    obtain ⟨hnode, hsatisfied⟩ := Sweep.Offers.mem_loadable.mp hj
    exact ⟨hsub.node j hnode, hsub.satisfied hnode hsatisfied⟩

/-- After the loop that unloads, the active fibers support each other. -/
theorem fixes_unloadSweep (hreconcile : Runs reconcile m) (hfixes : Fixes reconcile m) (fibers : List Nat) (h : Kept r)
    (hgood : Good r) (hbounded : r.offers.Bounded (maxPasses - 1)) (hfree : r.free < m + 1) (changed : Bool)
    (hleft : ∀ j ∈ r.activeSet, j ∈ fibers ∨ r.offers.Satisfied r.activeSet j) :
    ∃ x changed', unloadSweep reconcile fibers r changed = some (x, changed', none) ∧ Kept x ∧ Keeps r.Frozen r x ∧
      (∀ j, x.Present j ↔ r.Present j) ∧ x.offers.Supported x.activeSet ∧ (changed' = false → x = r) ∧
      (changed = true → changed' = true) := by
  induction fibers generalizing r changed with
  | nil =>
    refine ⟨r, changed, rfl, h, .refl, fun _ => Iff.rfl, fun j hj => ?_, fun _ => rfl, id⟩
    exact ⟨h.present_of_active hj, (hleft j hj).resolve_left List.not_mem_nil⟩
  | cons i fibers ih =>
    rw [unloadSweep, sweep]
    split
    · next happlies =>
      simp only [Bool.and_eq_true, beq_iff_eq, Bool.not_eq_true'] at happlies
      obtain ⟨hi, -⟩ := happlies
      obtain ⟨x, hx, hkept, hkeeps, hpresent, hnil, hcons⟩ := fixes_unload hreconcile hfixes h hgood hbounded hfree hi
      have hoffers := offers_congr hpresent hkeeps.plugin
      obtain ⟨y, changed', hy, hkept', hkeeps', hpresent', hsupported, -, hchanged⟩ := ih hkept
        (hgood.congr hkeeps hpresent) (hoffers.symm ▸ hbounded) (hkeeps.free ▸ hfree) true (fun j hj => by
          by_cases hempty : (r.plugin i).provides = []
          · obtain ⟨hne, hactive⟩ := (hnil hempty j).mp hj
            rcases hleft j hactive with hin | hsatisfied
            · exact .inl ((List.mem_cons.mp hin).resolve_left hne)
            · refine .inr fun name hname => ?_
              rw [hoffers] at hname ⊢
              obtain ⟨k, hk, hprovides⟩ := hsatisfied name hname
              refine ⟨k, (hnil hempty k).mpr ⟨?_, hk⟩, hprovides⟩
              rintro rfl
              have hin := hprovides.2
              rw [hempty] at hin
              cases hin
          · exact .inr (hcons hempty hj).2)
      have hchanged := hchanged rfl
      rw [hx]
      refine ⟨y, changed', hy, hkept', hkeeps.then hkeeps', fun j => (hpresent' j).trans (hpresent j), hsupported, ?_,
        fun _ => hchanged⟩
      intro hfalse
      rw [hchanged] at hfalse
      cases hfalse
    · next hnot =>
      refine ih h hgood hbounded hfree changed fun j hj => ?_
      rcases hleft j hj with hin | hsatisfied
      · rcases List.mem_cons.mp hin with rfl | hrest
        · have hactive : r.state j = .active := hj
          simp only [hactive, beq_self_eq_true, Bool.true_and, Bool.not_eq_true', Bool.not_eq_false] at hnot
          exact .inr ((h.isSatisfied_iff (h.present_of_active hactive)).mp hnot)
        · exact .inl hrest
      · exact .inr hsatisfied

/-- Where they support each other, none is unloaded. -/
theorem unloadSweep_of_supported (h : Kept r) (hsupported : r.offers.Supported r.activeSet) (fibers : List Nat)
    (changed : Bool) : unloadSweep reconcile fibers r changed = some (r, changed, none) := by
  induction fibers with
  | nil => rfl
  | cons i fibers ih =>
    rw [unloadSweep, sweep, if_neg]
    · exact ih
    · intro happlies
      simp only [Bool.and_eq_true, beq_iff_eq, Bool.not_eq_true'] at happlies
      have hsatisfied := (h.isSatisfied_iff (h.present_of_active happlies.1)).mpr (hsupported happlies.1).2
      rw [happlies.2] at hsatisfied
      cases hsatisfied

/-- A load of a satisfied fiber succeeds. -/
theorem load_succeeds (hreconcile : Runs reconcile m) (h : Kept r) (hgood : Good r) (hfree : r.free < m + 1) {i : Nat}
    (hi : r.state i = .pending) (hsatisfied : r.isSatisfied i = true) :
    ∃ x, r.load reconcile i true = some (x, none) ∧ Kept x ∧ Keeps r.Frozen r x ∧ (∀ j, x.Present j ↔ r.Present j) ∧
      ∀ j, j ∈ x.activeSet ↔ j = i ∨ j ∈ r.activeSet := by
  obtain ⟨z, e, hz, hkept, hkeeps⟩ := runs_load hreconcile h hfree i true
  have hpresent : r.Present i := h.present.mpr (.inl hi)
  have hloading : (r.transition i .loading).state i = .loading := (state_modify r i i _).trans (if_pos rfl)
  have hfreeNames (name : String) (hname : name ∈ (r.plugin i).provides) : r.impls name = none := by
    by_contra hne
    obtain ⟨j, hj⟩ := Option.ne_none_iff_exists'.mp hne
    obtain ⟨hin, hactive | hfrozen⟩ := h.owner name j hj
    · rw [(h.active j hactive).2.1] at hin
      have hpresentj := h.present_of_active hactive
      have heq := hgood.unique i j name hpresent hpresentj ⟨hpresent, hname⟩ ⟨hpresentj, hin⟩
      rw [heq, hactive] at hi
      cases hi
    · exact hgood.apart i j name hpresent hname hj hfrozen
  have hok := body_succeeds (r := r.transition i .loading) (i := i) _ (hgood.nodup i hpresent) hfreeNames
  obtain ⟨-, hkeeps', -, -, -⟩ := body_keeps (r.plugin i).provides (h.beginLoad hi) hloading
  rw [load, if_pos hi] at hz ⊢
  cases hbody : body i (r.plugin i).provides (r.transition i .loading) with
  | mk x ok =>
    rw [hbody] at hok hkeeps' hz
    simp only at hok hkeeps' hz ⊢
    subst hok
    simp only at hz ⊢
    have hfibers (j : Nat) (hj : j ≠ i) : x.fibers j = r.fibers j :=
      (hkeeps'.fibers j hj).trans (keeps_transition r i .loading j hj)
    have hplugin : x.plugin i = r.plugin i := (hkeeps'.plugin i).trans ((plugin_modify r i i _).trans (if_pos rfl))
    -- what the fiber needs is provided by others
    have hstill : x.isSatisfied i = true := by
      rw [isSatisfied, hplugin, List.all_eq_true]
      intro name hname
      obtain ⟨j, hj, hprovides⟩ := (h.has_iff).mp (List.all_eq_true.mp hsatisfied name hname)
      have hactive : r.state j = .active := hj
      have hne : j ≠ i := by
        rintro rfl
        rw [hactive] at hi
        cases hi
      have himpls : x.impls name = some j := (hkeeps'.impls j name hne).mpr ((h.active j hactive).2.2 name hprovides.2)
      rw [has, himpls]
      simp only [state, hfibers j hne, beq_iff_eq]
      exact hactive
    rw [hstill] at hz ⊢
    simp only [Bool.not_true, Bool.and_false, Bool.false_eq_true, if_false] at hz ⊢
    cases hz
    have hstate (j : Nat) : (x.transition i .active).state j = if j = i then .active else r.state j := by
      rw [transition, state_modify]
      split
      · rfl
      · next hne => rw [state, state, hfibers j hne]
    refine ⟨_, rfl, hkept, hkeeps, fun j => ?_, fun j => ?_⟩
    · rw [hkept.present, h.present, hstate]
      by_cases heq : j = i
      · simp [heq, hi]
      · simp [heq]
    · simp only [activeSet, Set.mem_ofPred_eq, hstate]
      by_cases heq : j = i
      · simp [heq]
      · simp [heq]

/-- The loop that loads is a sweep. -/
theorem loadSweep_succeeds (hreconcile : Runs reconcile m) (fibers : List Nat) (hsorted : fibers.Pairwise (· < ·))
    (h : Kept r) (hgood : Good r) (hfree : r.free < m + 1) (changed : Bool) :
    ∃ x changed', loadSweep reconcile fibers r changed = some (x, changed', none) ∧ Kept x ∧ Keeps r.Frozen r x ∧
      (∀ j, x.Present j ↔ r.Present j) ∧ r.activeSet ⊆ x.activeSet ∧
      (∀ j ∉ fibers, j ∈ x.activeSet ↔ j ∈ r.activeSet) ∧
      (∀ j ∈ fibers, j ∈ x.activeSet ↔ j ∈ r.activeSet ∨
        r.Present j ∧ r.offers.Satisfied {k | k < j ∧ k ∈ x.activeSet ∨ k ∈ r.activeSet} j) ∧
      (changed' = false → changed = false ∧ x = r) ∧
      (changed' = true → changed = true ∨ ∃ j, j ∈ x.activeSet ∧ j ∉ r.activeSet) := by
  induction fibers generalizing r changed with
  | nil =>
    exact ⟨r, changed, rfl, h, .refl, fun _ => Iff.rfl, subset_rfl, fun _ _ => Iff.rfl,
      fun _ hj => absurd hj List.not_mem_nil, fun hc => ⟨hc, rfl⟩, .inl⟩
  | cons i fibers ih =>
    obtain ⟨hfirst, hsorted⟩ := List.pairwise_cons.mp hsorted
    have hnot : i ∉ fibers := fun hi => Nat.lt_irrefl i (hfirst i hi)
    rw [loadSweep, sweep]
    split
    · next happlies =>
      simp only [Bool.and_eq_true, beq_iff_eq] at happlies
      obtain ⟨hpending, hsatisfied⟩ := happlies
      have hpresenti : r.Present i := h.present.mpr (.inl hpending)
      obtain ⟨x, hx, hkept, hkeeps, hpresent, hactive⟩ := load_succeeds hreconcile h hgood hfree hpending hsatisfied
      have hoffers := offers_congr hpresent hkeeps.plugin
      obtain ⟨y, changed', hy, hkept', hkeeps', hpresent', hsubset, hrest, hlist, hfalse, htrue⟩ :=
        ih hsorted hkept (hgood.congr hkeeps hpresent) (hkeeps.free ▸ hfree) true
      rw [hx]
      have hi : i ∈ y.activeSet := (hrest i hnot).mpr ((hactive i).mpr (.inl rfl))
      have hsubset' : r.activeSet ⊆ y.activeSet := fun j hj => hsubset ((hactive j).mpr (.inr hj))
      refine ⟨y, changed', hy, hkept', hkeeps.then hkeeps', fun j => (hpresent' j).trans (hpresent j), hsubset',
        fun j hj => ?_, fun j hj => ?_, fun hc => ?_, fun _ => ?_⟩
      · rw [hrest j fun hin => hj (List.mem_cons_of_mem _ hin), hactive]
        exact or_iff_right fun heq => hj (heq ▸ List.mem_cons_self)
      · rcases List.mem_cons.mp hj with rfl | hj
        · refine ⟨fun _ => .inr ⟨hpresenti, ?_⟩, fun _ => hi⟩
          exact ((h.isSatisfied_iff hpresenti).mp hsatisfied).mono fun k hk => .inr hk
        · rw [hlist j hj, hactive, hoffers, hpresent]
          have hne : j ≠ i := (Nat.ne_of_lt (hfirst j hj)).symm
          have hbefore : {k | k < j ∧ k ∈ y.activeSet ∨ k ∈ x.activeSet} =
              {k | k < j ∧ k ∈ y.activeSet ∨ k ∈ r.activeSet} := by
            ext k
            simp only [Set.mem_ofPred_eq, hactive]
            constructor
            · rintro (hk | heq | hk)
              · exact .inl hk
              · exact .inl (heq ▸ ⟨hfirst j hj, hi⟩)
              · exact .inr hk
            · exact fun hk => hk.imp id .inr
          rw [hbefore]
          simp only [hne, false_or]
      · have hc := (hfalse hc).1
        cases hc
      · refine .inr ⟨i, hi, fun hact => ?_⟩
        rw [show r.state i = .active from hact] at hpending
        cases hpending
    · next hskip =>
      obtain ⟨y, changed', hy, hkept', hkeeps', hpresent', hsubset, hrest, hlist, hfalse, htrue⟩ :=
        ih hsorted h hgood hfree changed
      refine ⟨y, changed', hy, hkept', hkeeps', hpresent', hsubset,
        fun j hj => hrest j fun hin => hj (List.mem_cons_of_mem _ hin),
        fun j hj => ?_, hfalse, htrue⟩
      rcases List.mem_cons.mp hj with rfl | hj
      · rw [hrest j hnot]
        refine ⟨.inl, fun hor => hor.elim id fun hsat => ?_⟩
        obtain ⟨hpresentj, hsatisfied⟩ := hsat
        refine (h.present.mp hpresentj).resolve_left fun hpending => hskip ?_
        -- the earlier fibers are as they were
        have hsame : {k | k < j ∧ k ∈ y.activeSet ∨ k ∈ r.activeSet} ⊆ r.activeSet := by
          rintro k (⟨hlt, hk⟩ | hk)
          · exact (hrest k fun hin => Nat.lt_asymm hlt (hfirst k hin)).mp hk
          · exact hk
        rw [hpending, (h.isSatisfied_iff hpresentj).mpr (hsatisfied.mono hsame)]
        rfl
      · exact hlist j hj

theorem pairwise_mountedFibers (r : PluginRegistry) : r.mountedFibers.Pairwise (· < ·) :=
  List.pairwise_lt_range.filter _

theorem Kept.mem_mountedFibers (h : Kept r) {i : Nat} : i ∈ r.mountedFibers ↔ r.mounted i = true := by
  rw [mountedFibers, List.mem_filter, List.mem_range]
  refine ⟨And.right, fun hi => ⟨Nat.lt_of_not_le fun hge => ?_, hi⟩⟩
  rw [(h.bounded i hge).2] at hi
  cases hi

/-- The loop that loads goes through all fibers present. -/
theorem isSweep_loadSweep (hreconcile : Runs reconcile m) (h : Kept r) (hgood : Good r) (hfree : r.free < m + 1)
    (changed : Bool) :
    ∃ x changed', loadSweep reconcile r.mountedFibers r changed = some (x, changed', none) ∧ Kept x ∧
      Keeps r.Frozen r x ∧ (∀ j, x.Present j ↔ r.Present j) ∧ r.offers.IsSweep r.activeSet x.activeSet ∧
      (changed' = false → changed = false ∧ x = r) ∧
      (changed' = true → changed = true ∨ ∃ j, j ∈ x.activeSet ∧ j ∉ r.activeSet) := by
  obtain ⟨x, changed', hx, hkept, hkeeps, hpresent, -, hrest, hlist, hfalse, htrue⟩ :=
    loadSweep_succeeds hreconcile r.mountedFibers r.pairwise_mountedFibers h hgood hfree changed
  refine ⟨x, changed', hx, hkept, hkeeps, hpresent, fun i => ?_, hfalse, htrue⟩
  by_cases hi : i ∈ r.mountedFibers
  · exact hlist i hi
  · rw [hrest i hi]
    refine ⟨.inl, fun hor => hor.resolve_right fun hsat => hi ?_⟩
    exact h.mem_mountedFibers.mpr hsat.1.1

/-- A pass over fibers that support each other only loads. -/
theorem pass_of_supported (hreconcile : Runs reconcile m) (h : Kept r) (hgood : Good r) (hfree : r.free < m + 1)
    (hsupported : r.offers.Supported r.activeSet) :
    ∃ x changed, r.pass reconcile = some (x, changed, none) ∧ Kept x ∧ Keeps r.Frozen r x ∧
      (∀ j, x.Present j ↔ r.Present j) ∧ r.offers.IsSweep r.activeSet x.activeSet ∧ (changed = false → x = r) ∧
      (changed = true → ∃ j, j ∈ x.activeSet ∧ j ∉ r.activeSet) := by
  obtain ⟨x, changed, hx, hkept, hkeeps, hpresent, hsweep, hfalse, htrue⟩ :=
    isSweep_loadSweep hreconcile h hgood hfree false
  refine ⟨x, changed, ?_, hkept, hkeeps, hpresent, hsweep, fun hc => (hfalse hc).2, fun hc =>
    (htrue hc).resolve_left nofun⟩
  rw [pass, unloadSweep_of_supported h hsupported]
  exact hx

/-- A pass: after the loop that unloads, it is one over fibers that support
each other. -/
theorem fixes_pass (hreconcile : Runs reconcile m) (hfixes : Fixes reconcile m) (h : Kept r) (hgood : Good r)
    (hbounded : r.offers.Bounded (maxPasses - 1)) (hfree : r.free < m + 1) :
    ∃ x changed B, r.pass reconcile = some (x, changed, none) ∧ Kept x ∧ Keeps r.Frozen r x ∧
      (∀ j, x.Present j ↔ r.Present j) ∧ r.offers.Supported B ∧ r.offers.IsSweep B x.activeSet ∧
      (changed = false → x = r ∧ B = r.activeSet) ∧ (r.offers.Supported r.activeSet → B = r.activeSet) := by
  have hmounted (j : Nat) (hj : j ∈ r.activeSet) : j ∈ r.mountedFibers ∨ r.offers.Satisfied r.activeSet j :=
    .inl (h.mem_mountedFibers.mpr (h.active j hj).1)
  obtain ⟨x, changed, hx, hkept, hkeeps, hpresent, hsupported, hsame, -⟩ :=
    fixes_unloadSweep hreconcile hfixes r.mountedFibers h hgood hbounded hfree false hmounted
  have hoffers := offers_congr hpresent hkeeps.plugin
  obtain ⟨y, changed', hy, hkept', hkeeps', hpresent', hsweep, hfalse, -⟩ :=
    isSweep_loadSweep hreconcile hkept (hgood.congr hkeeps hpresent) (hkeeps.free ▸ hfree) changed
  refine ⟨y, changed', x.activeSet, ?_, hkept', hkeeps.then hkeeps', fun j => (hpresent' j).trans (hpresent j),
    hoffers ▸ hsupported, hoffers ▸ hsweep, fun hc => ?_, fun hold => ?_⟩
  · rw [pass, hx]
    exact hy
  · obtain ⟨hc', rfl⟩ := hfalse hc
    rw [hsame hc']
    exact ⟨rfl, rfl⟩
  · rw [unloadSweep_of_supported h hold] at hx
    cases hx
    rfl

/-- The passes that are left reach the least fixpoint. -/
theorem fixes_passes (hreconcile : Runs reconcile m) (hfixes : Fixes reconcile m) (left k : Nat)
    (hleft : left + k = maxPasses - 1) (h : Kept r) (hgood : Good r) (hbounded : r.offers.Bounded (maxPasses - 1))
    (hfree : r.free < m + 1) (hreached : r.offers.Reached k r.activeSet)
    (hsupported : 0 < k → r.offers.Supported r.activeSet) :
    ∃ x, passes reconcile (left + 1) r = some (x, none) ∧ (∀ i, x.Present i ↔ r.Present i) ∧
      x.activeSet = r.offers.loadable := by
  induction left generalizing r k with
  | zero =>
    -- all is loaded, and the last pass changes nothing
    have hk : k = maxPasses - 1 := by omega
    subst hk
    have hactive := hsupported (by decide)
    have hloaded : r.activeSet = r.offers.loadable :=
      Set.Subset.antisymm (hactive.subset_loadable hgood.acyclic h.finite_present) (hreached.loadable_subset hbounded)
    obtain ⟨x, changed, hx, -, -, -, hsweep, hfalse, htrue⟩ := pass_of_supported hreconcile h hgood hfree hactive
    cases changed with
    | false =>
      cases hfalse rfl
      exact ⟨r, by rw [passes, hx], fun _ => Iff.rfl, hloaded⟩
    | true =>
      obtain ⟨j, hj, hnot⟩ := htrue rfl
      refine absurd ?_ hnot
      rw [hloaded]
      exact (hactive.sweep hsweep).subset_loadable hgood.acyclic h.finite_present hj
  | succ left ih =>
    obtain ⟨x, changed, B, hx, hkept, hkeeps, hpresent, hB, hsweep, hfalse, hsame⟩ :=
      fixes_pass hreconcile hfixes h hgood hbounded hfree
    have hoffers := offers_congr hpresent hkeeps.plugin
    have hreachedB : r.offers.Reached k B := by
      cases k with
      | zero => exact Sweep.Offers.reached_zero B
      | succ k =>
        rw [hsame (hsupported (Nat.succ_pos k))]
        exact hreached
    rw [passes, hx]
    cases changed with
    | false =>
      obtain ⟨rfl, rfl⟩ := hfalse rfl
      exact ⟨x, rfl, fun _ => Iff.rfl, hB.eq_loadable hsweep hgood.acyclic h.finite_present⟩
    | true =>
      obtain ⟨y, hy, hpresent', hactive⟩ := ih (k + 1) (by omega) hkept (hgood.congr hkeeps hpresent)
        (hoffers.symm ▸ hbounded) (hkeeps.free ▸ hfree) (hoffers.symm ▸ hreachedB.sweep hsweep hgood.acyclic)
        fun _ => hoffers.symm ▸ hB.sweep hsweep
      exact ⟨y, hy, fun i => (hpresent' i).trans (hpresent i), hactive.trans (by rw [hoffers])⟩

theorem fixes_reconcileWith (depth : Nat) : Fixes (reconcileWith depth) depth := by
  induction depth with
  | zero => exact fun r _ _ _ hfree => absurd hfree (Nat.not_lt_zero _)
  | succ depth ih =>
    intro r h hgood hbounded hfree
    have hreconcile := runs_reconcileWith depth
    obtain ⟨x, e, hx, hkept, hkeeps⟩ := runs_passes hreconcile maxPasses r h hfree
    obtain ⟨y, hy, hpresent, hactive⟩ := fixes_passes hreconcile ih (maxPasses - 1) 0 rfl h hgood hbounded hfree
      (Sweep.Offers.reached_zero _) nofun
    have heq : some (x, e) = some (y, none) := hx.symm.trans hy
    cases heq
    exact ⟨x, hy, hkept, hkeeps, hpresent, hactive⟩

end PluginRegistry

end MinionAgent
