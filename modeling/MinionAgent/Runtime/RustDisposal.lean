import MinionAgent.Runtime.RustDisposals

/-!
# MinionAgent.Runtime.RustDisposal

What a disposal of a Rust scope has done when it returns, under any
interleaving of disposals of scopes, of stores and of single effects.

* `ScopeTree.Sound` — what every run keeps;
* `ScopeTree.Answers` — what a call waits for;
* `scope_disposal` — disposers are started once and in order, and a disposal
  that returns has settled the scope and its descendants.
-/

namespace MinionAgent.Rust

namespace ScopeTree

open Table

variable {s x : ScopeTree}

/-! ## Starts of disposers -/

/-- The disposers that are not held were started once, and the disposer a bulk
unwind runs is running. -/
structure Starts (s : ScopeTree) : Prop where
  once : ∀ (i : Nat) (slot : ScopeSlot), s.slots[i]? = some slot → slot.starts = if slot.phase = .held then 0 else 1
  running : ∀ (b : Nat) (bulk : BulkUnwind) (i : Nat), s.bulks[b]? = some bulk → bulk.running = some i →
    ∃ slot, s.slots[i]? = some slot ∧ slot.phase = .running (.unwind b)

theorem starts_initial : Starts {} where
  once := by simp
  running := by simp

theorem Stepped.once (hstep : Stepped s x) (h : Starts s) (i : Nat) (slot : ScopeSlot)
    (hslot : x.slots[i]? = some slot) :
    slot.starts = if slot.phase = .held then 0 else 1 := by
  cases hstep.slotChange hslot with
  | same hold => exact h.once i slot hold
  | pushed hnew _ =>
    rw [hnew]
    rfl
  | taken old hold hheld hnew =>
    have honce := h.once i old hold
    rw [if_pos hheld] at honce
    simp [hnew, honce]
  | unwound old b bulk rest hold hheld hnew =>
    have honce := h.once i old hold
    rw [if_pos hheld] at honce
    simp [hnew, honce]
  | handleEnded old hold hrunning hnew =>
    have honce := h.once i old hold
    simp [hnew, honce, hrunning]
  | unwindEnded old b bulk hold hb hrunning hnew =>
    have honce := h.once i old hold
    obtain ⟨old', hold', hphase⟩ := h.running b bulk i hb hrunning
    rw [hold] at hold'
    cases hold'
    simp [hnew, honce, hphase]

/-- A step that leaves the disposers that unwinds run alone. -/
theorem Starts.keep (h : Starts s)
    (hslots : ∀ (i : Nat) (slot : ScopeSlot) (b : Nat), s.slots[i]? = some slot → slot.phase = .running (.unwind b) →
      x.slots[i]? = some slot) {b : Nat} {bulk : BulkUnwind} {i : Nat} (hb : s.bulks[b]? = some bulk)
    (hrunning : bulk.running = some i) : ∃ slot, x.slots[i]? = some slot ∧ slot.phase = .running (.unwind b) := by
  obtain ⟨slot, hslot, hphase⟩ := h.running b bulk i hb hrunning
  exact ⟨slot, hslots i slot b hslot hphase, hphase⟩

/-- Neither a store that is closed nor the end of an unwind runs a disposer. -/
theorem Starts.running_close (h : Starts s) {scope b' : Nat} {node : ScopeNode} {disposal : Option Nat}
    {bulks : List BulkUnwind} (hopens : s.Opens scope node disposal b' bulks) {b i : Nat} {bulk : BulkUnwind}
    (hb : bulks[b]? = some bulk) (hrunning : bulk.running = some i) :
    ∃ slot, s.slots[i]? = some slot ∧ slot.phase = .running (.unwind b) := by
  rcases hopens with ⟨-, rfl⟩ | ⟨-, -, rfl⟩
  · exact h.running b bulk i hb hrunning
  · rcases getElem?_concat_cases hb with hold | ⟨-, rfl⟩
    · exact h.running b bulk i hold hrunning
    · cases hrunning

theorem Stepped.running (hstep : Stepped s x) (h : Starts s) (b : Nat) (bulk : BulkUnwind) (i : Nat)
    (hb : x.bulks[b]? = some bulk) (hrunning : bulk.running = some i) :
    ∃ slot, x.slots[i]? = some slot ∧ slot.phase = .running (.unwind b) := by
  cases hstep with
  | stays | created | called | begun | awaited | disposalFinished | returned => exact h.running b bulk i hb hrunning
  | closed scope node b' bulks hnode hopens => exact h.running_close hopens hb hrunning
  | closing w u scope rest node b' bulks hw hfinished hremaining hnode hopens =>
      exact h.running_close hopens hb hrunning
  | skipped | bulkFinished =>
    rcases getElem?_modify_cases hb with ⟨-, old, hold, rfl⟩ | ⟨-, hold⟩
    · exact h.running b old i hold hrunning
    · exact h.running b bulk i hold hrunning
  | pushed =>
    refine h.keep (fun j slot b' hslot _ => ?_) hb hrunning
    rw [push, List.getElem?_append_left (List.getElem?_eq_some_iff.mp hslot).1, hslot]
  | taken j old hold hphase | handleEnded j old hold hphase =>
    refine h.keep (fun j' slot b' hslot hrun => ?_) hb hrunning
    rw [show ScopeTree.slots _ = s.slots.modify j _ from rfl, List.getElem?_modify_ne _ _ fun heq => ?_]
    · exact hslot
    · subst heq
      obtain rfl := Option.some.inj (hold.symm.trans hslot)
      rw [hphase] at hrun
      cases hrun
  | unwound b' bulk' j rest slot hb' hfinished hrunning' hremaining hslot hheld =>
    rcases getElem?_modify_cases hb with ⟨rfl, old, -, rfl⟩ | ⟨hne, hold⟩
    · cases hrunning
      exact ⟨_, (changed_modify hslot _).after, rfl⟩
    · obtain ⟨slot', hslot', hphase⟩ := h.running b bulk i hold hrunning
      refine exists_getElem?_modify hslot' hphase fun heq => ?_
      subst heq
      obtain rfl := Option.some.inj (hslot.symm.trans hslot')
      rw [hheld] at hphase
      cases hphase
  | unwindEnded b' bulk' j hb' hfinished hrunning' =>
    rcases getElem?_modify_cases hb with ⟨rfl, old, -, rfl⟩ | ⟨hne, hold⟩
    · cases hrunning
    · obtain ⟨slot, hslot, hphase⟩ := h.running b bulk i hold hrunning
      refine exists_getElem?_modify hslot hphase fun heq => ?_
      subst heq
      obtain ⟨slot', hslot', hphase'⟩ := h.running b' bulk' j hb' hrunning'
      obtain rfl := Option.some.inj (hslot.symm.trans hslot')
      rw [hphase] at hphase'
      cases hphase'
      exact absurd rfl hne

/-! ## What every run keeps -/

/-- What every run keeps. -/
structure Sound (s : ScopeTree) : Prop where
  tree : Tree s
  bulks : Bulks s
  disposals : Disposals s
  starts : Starts s

theorem sound_initial : Sound {} := ⟨tree_initial, bulks_initial, disposals_initial, starts_initial⟩

theorem sound_step {s' : ScopeTree} {event : TreeEvent} (h : Sound s) (hstep : s.step event = some s') : Sound s' := by
  have hstepped := stepped hstep
  exact ⟨hstepped.tree h.tree, hstepped.bulks h.bulks, hstepped.disposals h.tree h.bulks h.disposals,
    ⟨hstepped.once h.starts, hstepped.running h.starts⟩⟩

theorem sound_run {s' : ScopeTree} {events : List TreeEvent} (hrun : Transition.run step s events = some s')
    (h : Sound s) : Sound s' := Transition.run_preserves (fun _ _ _ h hstep => sound_step h hstep) hrun h

/-! ## What a call waits for -/

/-- A call returns when the disposal it waits for is finished. -/
theorem Stepped.waits (hstep : Stepped s x) {c w : Nat} (hc : s.calls[c]? = some (.waiting w)) :
    x.calls[c]? = some (.waiting w) ∨ ∃ u, s.disposals[w]? = some u ∧ u.finished = true := by
  have hlonger (call : ScopeCall) : (s.calls ++ [call])[c]? = some (.waiting w) := by
    rw [List.getElem?_append_left (List.getElem?_eq_some_iff.mp hc).1, hc]
  cases hstep with
  | stays | created | pushed | closed | taken | handleEnded | unwound | skipped | unwindEnded | bulkFinished | awaited
      | closing | disposalFinished => exact .inl hc
  | called | begun => exact .inl (hlonger _)
  | returned c' w' u hc' hw hfinished =>
    by_cases heq : c' = c
    · subst heq
      obtain rfl : w' = w := by simpa [hc'] using hc
      exact .inr ⟨u, hw, hfinished⟩
    · exact .inl (by rw [List.getElem?_set_ne heq, hc])

/-- A call on a scope waits for a disposal that covers it, or that disposal is
finished. -/
def Answers (s : ScopeTree) (c scope : Nat) : Prop :=
  ∃ w u, s.disposals[w]? = some u ∧ s.AtOrBelow u.root scope ∧ (s.calls[c]? = some (.waiting w) ∨ u.finished = true)

theorem answers_step {s' : ScopeTree} {event : TreeEvent} {c scope : Nat} (h : Answers s c scope)
    (hstep : s.step event = some s') : Answers s' c scope := by
  obtain ⟨w, u, hw, hbelow, hcall⟩ := h
  have hstepped := stepped hstep
  obtain ⟨u', hw', hroot, hstays⟩ := hstepped.disposal w u hw
  refine ⟨w, u', hw', hroot ▸ hstepped.grows.atOrBelow hbelow, ?_⟩
  rcases hcall with hwaiting | hfinished
  · rcases hstepped.waits hwaiting with hstill | ⟨u₁, hw₁, hfinished⟩
    · exact .inl hstill
    · obtain rfl := Option.some.inj (hw.symm.trans hw₁)
      exact .inr (hstays hfinished)
  · exact .inr (hstays hfinished)

/-- A call on a scope that no disposal in flight has made inactive, save its
own. -/
theorem answers_dispose (h : Sound s) {scope : Nat} {node : ScopeNode} (hnode : s.scopes[scope]? = some node)
    (hclear : node.inFlightDisposal = none →
      ∀ (w : Nat) (u : ScopeUnwind), s.disposals[w]? = some u → s.AtOrBelow u.root scope → u.finished = true) :
    Answers (s.dispose scope node) s.calls.length scope := by
  have hlt := (List.getElem?_eq_some_iff.mp hnode).1
  rw [dispose]
  split
  · next w hflight =>
    obtain ⟨u, hw, hroot⟩ := h.disposals.own scope w (by simp [inFlightDisposal?, hnode, hflight])
    exact ⟨w, u, hw, hroot ▸ .refl, .inl List.getElem?_concat_length⟩
  · next hflight =>
    split
    · exact ⟨s.disposals.length, _, List.getElem?_concat_length, .refl, .inl List.getElem?_concat_length⟩
    · next hinactive =>
      obtain ⟨w, u, hw, hbelow⟩ := h.disposals.inactive scope hlt (by simpa [isActive, hnode] using hinactive)
      exact ⟨w, u, hw, hbelow, .inr (hclear hflight w u hw hbelow)⟩

/-- When a call that waits has returned, everything below its scope is
settled. -/
theorem settled_of_returned (h : Sound s) {c scope d : Nat} (hanswers : Answers s c scope)
    (hreturned : s.calls[c]? = some .returned) (hd : s.AtOrBelow scope d) : Settled s d := by
  obtain ⟨w, u, hw, hbelow, hwaiting | hfinished⟩ := hanswers
  · rw [hreturned] at hwaiting
    cases hwaiting
  · refine ((h.disposals.covered w u hw).covers d (hbelow.trans hd)).resolve_left fun hleft => ?_
    rw [hfinished] at hleft
    cases hleft.1

/-! ## The order of an unwind -/

/-- An unwind starts a disposer: the later ones of its store are settled, and
so are the deeper scopes of the disposal that began the unwind. -/
theorem settled_before_start {s' : ScopeTree} {event : TreeEvent} (h : Sound s) (hstep : s.step event = some s')
    {i b : Nat} {slot slot' : ScopeSlot} (hslot : s.slots[i]? = some slot) (hheld : slot.phase = .held)
    (hslot' : s'.slots[i]? = some slot') (hrunning : slot'.phase = .running (.unwind b)) :
    (∀ (j : Nat) (later : ScopeSlot), i < j → s.slots[j]? = some later → later.scope = slot.scope →
      IsSettled later.phase) ∧
    ∀ (bulk : BulkUnwind) (w : Nat), s.bulks[b]? = some bulk → bulk.disposal = some w → BegunBy s w slot.scope := by
  cases (stepped hstep).slotChange hslot' with
  | same hold =>
    obtain rfl := Option.some.inj (hslot.symm.trans hold)
    rw [hheld] at hrunning
    cases hrunning
  | pushed hnew | taken old _ _ hnew | handleEnded old _ _ hnew | unwindEnded old b' _ _ _ _ hnew =>
    rw [hnew] at hrunning
    cases hrunning
  | unwound old b' bulk rest hold hheld' hnew hb hfinished hnone hremaining =>
    rw [hnew] at hrunning
    cases hrunning
    obtain ⟨hsorted, hscopes⟩ := h.bulks.newestFirst b bulk hb
    obtain ⟨slot₁, hslot₁, hscope⟩ := hscopes i (by rw [hremaining]; exact List.mem_cons_self)
    obtain rfl := Option.some.inj (hslot.symm.trans hslot₁)
    refine ⟨fun j later hlt hlater hsame => ⟨fun hlaterHeld => ?_, fun b' hlaterRuns => ?_⟩, fun bulk' w hb' hw => ?_⟩
    · have hleft := h.bulks.left b bulk hb hfinished j later hlater (hsame.trans hscope) hlaterHeld
      rw [hremaining] at hleft hsorted
      rcases List.mem_cons.mp hleft with rfl | hrest
      · exact Nat.lt_irrefl _ hlt
      · exact Nat.lt_irrefl _ (hlt.trans ((List.pairwise_cons.mp hsorted).1 j hrest))
    · have hruns := h.bulks.eq_of_runs hb hfinished hlater (hsame.trans hscope) hlaterRuns
      rw [hnone] at hruns
      cases hruns
    · obtain rfl := Option.some.inj (hb.symm.trans hb')
      rw [hscope]
      exact h.disposals.origin b bulk w hb hw

/-! ## Disposals of a run -/

/-- Every disposer is started at most once.  A disposal that returns, where at
the call no disposal of an ancestor was in flight without one of the scope
itself, has started every disposer of the scope and its descendants, and those
that no handle took are completed.  An unwind starts a disposer after the later
ones of its store, and after those of every deeper scope of the disposal that
began the unwind. -/
theorem scope_disposal {before : List TreeEvent} (hrun : Transition.run step {} before = some s) :
    (∀ (i : Nat) (slot : ScopeSlot), s.slots[i]? = some slot → slot.starts ≤ 1) ∧
    (∀ (scope : Nat) (node : ScopeNode) (after : List TreeEvent) (s' : ScopeTree), s.scopes[scope]? = some node →
      (node.inFlightDisposal = none →
        ∀ (w : Nat) (u : ScopeUnwind), s.disposals[w]? = some u → s.AtOrBelow u.root scope → u.finished = true) →
      Transition.run step s (.dispose scope :: after) = some s' → s'.calls[s.calls.length]? = some .returned →
      ∀ d, s'.AtOrBelow scope d → s'.isAccepting d = false ∧
        ∀ (i : Nat) (slot : ScopeSlot), s'.slots[i]? = some slot → slot.scope = d →
          slot.starts = 1 ∧ (slot.phase = .running .handle ∨ ∃ starter, slot.phase = .done starter)) ∧
    ∀ (event : TreeEvent) (s' : ScopeTree) (i b : Nat) (slot slot' : ScopeSlot), s.step event = some s' →
      s.slots[i]? = some slot → slot.phase = .held → s'.slots[i]? = some slot' →
      slot'.phase = .running (.unwind b) →
      (∀ (j : Nat) (later : ScopeSlot), i < j → s.slots[j]? = some later → later.scope = slot.scope →
        IsSettled later.phase) ∧
      ∀ (bulk : BulkUnwind) (w : Nat), s.bulks[b]? = some bulk → bulk.disposal = some w → BegunBy s w slot.scope := by
  have hsound := sound_run hrun sound_initial
  refine ⟨fun i slot hslot => ?_, fun scope node after s' hnode hclear hafter hreturned d hd => ?_,
    fun event s' i b slot slot' hstep hslot hheld hslot' hrunning =>
      settled_before_start hsound hstep hslot hheld hslot' hrunning⟩
  · rw [hsound.starts.once i slot hslot]
    split <;> omega
  · have hsound' := sound_run hafter hsound
    obtain ⟨s₁, hfirst, hrest⟩ := Transition.run_cons.mp hafter
    have hanswers : Answers s₁ s.calls.length scope := by
      rw [step, hnode] at hfirst
      cases hfirst
      exact answers_dispose hsound hnode hclear
    have hsettled := settled_of_returned hsound'
      (Transition.run_preserves (fun _ _ _ h hstep => answers_step h hstep) hrest hanswers) hreturned hd
    refine ⟨hsettled.stopped, fun i slot hslot hscope => ?_⟩
    obtain ⟨hstarted, hnotUnwound⟩ := hsettled.slots i slot hslot hscope
    refine ⟨by rw [hsound'.starts.once i slot hslot, if_neg hstarted], ?_⟩
    cases hphase : slot.phase with
    | held => exact absurd hphase hstarted
    | running starter =>
      cases starter with
      | handle => exact .inl rfl
      | unwind b => exact absurd hphase (hnotUnwound b)
    | done starter => exact .inr ⟨starter, rfl⟩

theorem scope_disposal_of_root_and_child : ∃ s s' : ScopeTree,
    Transition.run step {} [.createRoot, .createChild 0, .push 0, .push 1] = some s ∧
    Transition.run step s [.dispose 0, .disposal 0, .bulk 0, .bulk 0, .bulk 0, .disposal 0, .disposal 0, .bulk 1,
      .bulk 1, .bulk 1, .disposal 0, .disposal 0, .call 0] = some s' ∧ s'.slots.length = 2 ∧
    ∀ d, s'.AtOrBelow 0 d → s'.isAccepting d = false ∧
      ∀ (i : Nat) (slot : ScopeSlot), s'.slots[i]? = some slot → slot.scope = d →
        slot.starts = 1 ∧ (slot.phase = .running .handle ∨ ∃ starter, slot.phase = .done starter) := by
  let s : ScopeTree := ⟨[{ parent := none, depth := 0 }, { parent := some 0, depth := 1 }],
    [{ scope := 0 }, { scope := 1 }], [], [], []⟩
  have hbefore : Transition.run step {} [.createRoot, .createChild 0, .push 0, .push 1] = some s := rfl
  refine ⟨s, _, hbefore, rfl, rfl, fun d hd => ?_⟩
  exact (scope_disposal hbefore).2.1 0 { parent := none, depth := 0 }
    [.disposal 0, .bulk 0, .bulk 0, .bulk 0, .disposal 0, .disposal 0, .bulk 1, .bulk 1, .bulk 1, .disposal 0,
      .disposal 0, .call 0] _ rfl (fun _ w u hw => by cases hw) rfl rfl d hd

/-- A disposal returns while a disposer that a handle took still runs. -/
theorem scope_disposal_leaves_handle_running : ¬ ∀ (before after : List TreeEvent) (s s' : ScopeTree) (scope : Nat),
    Transition.run step {} before = some s → Transition.run step s (.dispose scope :: after) = some s' →
    s'.calls[s.calls.length]? = some .returned → ∀ d, s'.AtOrBelow scope d →
      ∀ (i : Nat) (slot : ScopeSlot), s'.slots[i]? = some slot → slot.scope = d → ∃ starter,
        slot.phase = .done starter := by
  intro h
  obtain ⟨starter, hdone⟩ := h [.createRoot, .push 0, .handle 0]
    [.disposal 0, .bulk 0, .bulk 0, .disposal 0, .disposal 0, .call 0] _ _ 0 rfl rfl rfl 0 .refl 0
    { scope := 0, phase := .running .handle, starts := 1 } rfl rfl
  cases hdone

end ScopeTree

end MinionAgent.Rust
