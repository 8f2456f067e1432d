import MinionAgent.Runtime.RustScope
import MinionAgent.Library.Table

/-!
# MinionAgent.Runtime.RustScopeStep

What a step of the Rust scope tree can do, said once.

* `ScopeTree.Stepped` — every way a step happens, with what guards it;
* `ScopeTree.SlotChange` — what it does to a slot;
* `ScopeTree.Grows` — what it keeps of scopes and slots.
-/

namespace MinionAgent.Rust

namespace ScopeTree

open Table

variable {s x : ScopeTree}

/-! ## Scopes -/

/-- A scope accepts effects. -/
def isAccepting (s : ScopeTree) (scope : Nat) : Bool := (s.scopes[scope]?.map ScopeNode.accepting).getD false

/-- `is_active`. -/
def isActive (s : ScopeTree) (scope : Nat) : Bool := (s.scopes[scope]?.map ScopeNode.active).getD false

/-- The bulk unwind of a store that is in flight. -/
def inFlightUnwind? (s : ScopeTree) (scope : Nat) : Option Nat := s.scopes[scope]?.bind ScopeNode.inFlightUnwind

/-- The disposal of a scope that is in flight. -/
def inFlightDisposal? (s : ScopeTree) (scope : Nat) : Option Nat := s.scopes[scope]?.bind ScopeNode.inFlightDisposal

/-- A scope or one of its descendants. -/
abbrev AtOrBelow (s : ScopeTree) : Nat → Nat → Prop := Forest.AtOrBelow s.parent?

/-- The disposer was started, and it is completed or was taken by a handle. -/
def IsSettled (phase : SlotPhase) : Prop := phase ≠ .held ∧ ∀ b, phase ≠ .running (.unwind b)

/-- A store takes no more effects, and no disposer of it is left. -/
structure Settled (s : ScopeTree) (scope : Nat) : Prop where
  stopped : s.isAccepting scope = false
  slots : ∀ (i : Nat) (slot : ScopeSlot), s.slots[i]? = some slot → slot.scope = scope → IsSettled slot.phase

theorem lt_of_parent? {d p : Nat} (h : s.parent? d = some p) : d < s.scopes.length := by
  by_contra hge
  rw [Nat.not_lt] at hge
  rw [ScopeTree.parent?, List.getElem?_eq_none hge] at h
  cases h

theorem isAccepting_of_ge {d : Nat} (h : s.scopes.length ≤ d) : s.isAccepting d = false := by
  simp [isAccepting, List.getElem?_eq_none h]

/-! ## Ways a step happens -/

/-- The store of a scope is closed, with the unwind `b` in flight. -/
def close (s : ScopeTree) (scope b : Nat) (bulks : List BulkUnwind) : ScopeTree :=
  { s with
    scopes := s.scopes.modify scope fun node => { node with accepting := false, inFlightUnwind := some b }
    bulks }

/-- The unwind in flight is joined, or one more begins. -/
def Opens (s : ScopeTree) (scope : Nat) (node : ScopeNode) (disposal : Option Nat) (b : Nat)
    (bulks : List BulkUnwind) : Prop :=
  node.inFlightUnwind = some b ∧ bulks = s.bulks ∨
    node.inFlightUnwind = none ∧ b = s.bulks.length ∧
      bulks = s.bulks ++ [{ scope, remaining := s.slotsOf scope, disposal }]

/-- A call of `dispose` is made. -/
def called (s : ScopeTree) (call : ScopeCall) : ScopeTree := { s with calls := s.calls ++ [call] }

/-- A disposal begins, and its caller waits for it. -/
def begun (s : ScopeTree) (root : Nat) : ScopeTree := (s.beginDisposal root).called (.waiting s.disposals.length)

/-- Every way a step happens. -/
inductive Stepped (s : ScopeTree) : ScopeTree → Prop
  | stays : Stepped s s
  | created (parent : Option Nat) (depth : Nat)
      (hparent : ∀ p, parent = some p → p < s.scopes.length ∧ s.isActive p = true ∧ depth = s.depth p + 1) :
      Stepped s (s.createScope parent depth)
  | pushed (scope : Nat) (haccepting : s.isAccepting scope = true) : Stepped s (s.push scope)
  | called (call : ScopeCall) : Stepped s (s.called call)
  | begun (root : Nat) (hroot : root < s.scopes.length) : Stepped s (s.begun root)
  | closed (scope : Nat) (node : ScopeNode) (b : Nat) (bulks : List BulkUnwind)
      (hnode : s.scopes[scope]? = some node) (hopens : s.Opens scope node none b bulks) :
      Stepped s (s.close scope b bulks)
  | taken (i : Nat) (slot : ScopeSlot) (hslot : s.slots[i]? = some slot) (hheld : slot.phase = .held) :
      Stepped s (s.start i .handle)
  | handleEnded (i : Nat) (slot : ScopeSlot) (hslot : s.slots[i]? = some slot)
      (hrunning : slot.phase = .running .handle) : Stepped s (s.complete i .handle)
  | unwound (b : Nat) (bulk : BulkUnwind) (i : Nat) (rest : List Nat) (slot : ScopeSlot)
      (hb : s.bulks[b]? = some bulk) (hfinished : bulk.finished = false) (hrunning : bulk.running = none)
      (hremaining : bulk.remaining = i :: rest) (hslot : s.slots[i]? = some slot) (hheld : slot.phase = .held) :
      Stepped s ((s.start i (.unwind b)).setBulk b fun bulk => { bulk with remaining := rest, running := some i })
  | skipped (b : Nat) (bulk : BulkUnwind) (i : Nat) (rest : List Nat)
      (hb : s.bulks[b]? = some bulk) (hfinished : bulk.finished = false) (hrunning : bulk.running = none)
      (hremaining : bulk.remaining = i :: rest) (htaken : s.slots[i]?.map ScopeSlot.phase ≠ some .held) :
      Stepped s (s.setBulk b fun bulk => { bulk with remaining := rest })
  | unwindEnded (b : Nat) (bulk : BulkUnwind) (i : Nat) (hb : s.bulks[b]? = some bulk)
      (hfinished : bulk.finished = false) (hrunning : bulk.running = some i) :
      Stepped s ((s.complete i (.unwind b)).setBulk b fun bulk => { bulk with running := none })
  | bulkFinished (b : Nat) (bulk : BulkUnwind) (hb : s.bulks[b]? = some bulk) (hfinished : bulk.finished = false)
      (hrunning : bulk.running = none) (hremaining : bulk.remaining = []) : Stepped s (s.finishBulk b bulk)
  | awaited (w : Nat) (u : ScopeUnwind) (b : Nat) (bulk : BulkUnwind) (hw : s.disposals[w]? = some u)
      (hfinished : u.finished = false) (hawaiting : u.awaiting = some b) (hb : s.bulks[b]? = some bulk)
      (hdone : bulk.finished = true) :
      Stepped s (s.setDisposal w fun u' => { u' with remaining := u.remaining.tail, awaiting := none })
  | closing (w : Nat) (u : ScopeUnwind) (scope : Nat) (rest : List Nat) (node : ScopeNode) (b : Nat)
      (bulks : List BulkUnwind) (hw : s.disposals[w]? = some u) (hfinished : u.finished = false)
      (hremaining : u.remaining = scope :: rest) (hnode : s.scopes[scope]? = some node)
      (hopens : s.Opens scope node (some w) b bulks) :
      Stepped s ((s.close scope b bulks).setDisposal w fun u => { u with awaiting := some b })
  | disposalFinished (w : Nat) (u : ScopeUnwind) (hw : s.disposals[w]? = some u) (hfinished : u.finished = false)
      (hawaiting : u.awaiting = none) (hremaining : u.remaining = []) : Stepped s (s.finishDisposal w u)
  | returned (c w : Nat) (u : ScopeUnwind) (hc : s.calls[c]? = some (.waiting w)) (hw : s.disposals[w]? = some u)
      (hfinished : u.finished = true) : Stepped s { s with calls := s.calls.set c .returned }

/-- What `close_and_dispose` does. -/
theorem closeAndDispose_eq {scope : Nat} {node : ScopeNode} (hnode : s.scopes[scope]? = some node)
    (disposal : Option Nat) : ∃ b bulks, s.closeAndDispose scope node disposal = (s.close scope b bulks, b) ∧
      s.Opens scope node disposal b bulks := by
  rw [closeAndDispose]
  split
  · next b hflight =>
    refine ⟨b, s.bulks, ?_, .inl ⟨hflight, rfl⟩⟩
    -- the unwind in flight is the one that the scope has
    have hsame : s.scopes.modify scope (fun node => { node with accepting := false }) =
        s.scopes.modify scope fun node => { node with accepting := false, inFlightUnwind := some b } := by
      refine List.ext_getElem? fun d => ?_
      simp only [List.getElem?_modify]
      by_cases heq : scope = d
      · subst heq
        simp [hnode, hflight]
      · simp [heq]
    rw [close, hsame]
  · next hflight => exact ⟨s.bulks.length, _, rfl, .inr ⟨hflight, rfl, rfl⟩⟩

theorem stepped_dispose {scope : Nat} {node : ScopeNode} (hnode : s.scopes[scope]? = some node) :
    Stepped s (s.dispose scope node) := by
  rw [dispose]
  split
  · exact .called _
  · split
    · exact .begun scope (List.getElem?_eq_some_iff.mp hnode).1
    · exact .called _

theorem stepped_bulkStep {b : Nat} {bulk : BulkUnwind} (hb : s.bulks[b]? = some bulk)
    (hstep : s.bulkStep b bulk = some x) : Stepped s x := by
  rw [bulkStep] at hstep
  split at hstep
  · cases hstep
  · next hunfinished =>
    have hfinished : bulk.finished = false := by simpa using hunfinished
    split at hstep
    · next i hrunning =>
      cases hstep
      exact .unwindEnded b bulk i hb hfinished hrunning
    · next i rest hrunning hremaining =>
      split at hstep
      · next hheld =>
        cases hstep
        obtain ⟨slot, hslot, hheld⟩ := Option.map_eq_some_iff.mp hheld
        exact .unwound b bulk i rest slot hb hfinished hrunning hremaining hslot hheld
      · next htaken =>
        cases hstep
        exact .skipped b bulk i rest hb hfinished hrunning hremaining htaken
    · next hrunning hremaining =>
      cases hstep
      exact .bulkFinished b bulk hb hfinished hrunning hremaining

theorem stepped_disposalStep {w : Nat} {u : ScopeUnwind} (hw : s.disposals[w]? = some u)
    (hstep : s.disposalStep w u = some x) : Stepped s x := by
  rw [disposalStep] at hstep
  split at hstep
  · cases hstep
  · next hunfinished =>
    have hfinished : u.finished = false := by simpa using hunfinished
    split at hstep
    · next b hawaiting =>
      split at hstep
      · next hdone =>
        cases hstep
        obtain ⟨bulk, hb, hdone⟩ := Option.map_eq_some_iff.mp hdone
        exact .awaited w u b bulk hw hfinished hawaiting hb hdone
      · cases hstep
    · next scope rest _ hremaining =>
      split at hstep
      · next node hnode =>
        obtain ⟨b, bulks, heq, hopens⟩ := closeAndDispose_eq hnode (some w)
        rw [heq] at hstep
        cases hstep
        exact .closing w u scope rest node b bulks hw hfinished hremaining hnode hopens
      · cases hstep
    · next hawaiting hremaining =>
      cases hstep
      exact .disposalFinished w u hw hfinished hawaiting hremaining

/-- A step happens in one of these ways. -/
theorem stepped {event : TreeEvent} (hstep : s.step event = some x) : Stepped s x := by
  cases event with
  | createRoot =>
    cases hstep
    exact .created none 0 nofun
  | createChild parent =>
    rw [step] at hstep
    split at hstep
    · next node hnode =>
      split at hstep
      · next hactive =>
        cases hstep
        refine .created (some parent) _ fun p hp => ?_
        cases hp
        exact ⟨(List.getElem?_eq_some_iff.mp hnode).1, by simp [isActive, hnode, hactive], by simp [depth, hnode]⟩
      · cases hstep
    · cases hstep
  | push scope =>
    rw [step] at hstep
    split at hstep
    · next node hnode =>
      split at hstep
      · next haccepting =>
        cases hstep
        exact .pushed scope (by simp [isAccepting, hnode, haccepting])
      · cases hstep
    · cases hstep
  | dispose scope =>
    rw [step] at hstep
    split at hstep
    · next node hnode =>
      cases hstep
      exact stepped_dispose hnode
    · cases hstep
  | closeAndDispose scope =>
    rw [step] at hstep
    split at hstep
    · next node hnode =>
      obtain ⟨b, bulks, heq, hopens⟩ := closeAndDispose_eq hnode none
      rw [heq] at hstep
      cases hstep
      exact .closed scope node b bulks hnode hopens
    · cases hstep
  | handle i =>
    rw [step] at hstep
    split at hstep
    · next slot hslot =>
      cases hstep
      split
      · next hheld => exact .taken i slot hslot hheld
      · exact .stays
    · cases hstep
  | handleEnds i =>
    rw [step] at hstep
    split at hstep
    · next slot hslot =>
      split at hstep
      · next hrunning =>
        cases hstep
        exact .handleEnded i slot hslot hrunning
      · cases hstep
    · cases hstep
  | bulk b =>
    rw [step] at hstep
    split at hstep
    · next bulk hb => exact stepped_bulkStep hb hstep
    · cases hstep
  | disposal w =>
    rw [step] at hstep
    split at hstep
    · next u hw => exact stepped_disposalStep hw hstep
    · cases hstep
  | call c =>
    rw [step] at hstep
    split at hstep
    · next w hc =>
      split at hstep
      · next hfinished =>
        cases hstep
        obtain ⟨u, hw, hfinished⟩ := Option.map_eq_some_iff.mp hfinished
        exact .returned c w u hc hw hfinished
      · cases hstep
    · cases hstep

/-! ## What a step does to a slot -/

/-- What a step does to a slot. -/
inductive SlotChange (s : ScopeTree) (i : Nat) (slot : ScopeSlot) : Prop
  | same (h : s.slots[i]? = some slot)
  | pushed (hslot : slot = { scope := slot.scope }) (haccepting : s.isAccepting slot.scope = true)
  | taken (old : ScopeSlot) (h : s.slots[i]? = some old) (hheld : old.phase = .held)
      (hslot : slot = { old with phase := .running .handle, starts := old.starts + 1 })
  | unwound (old : ScopeSlot) (b : Nat) (bulk : BulkUnwind) (rest : List Nat) (h : s.slots[i]? = some old)
      (hheld : old.phase = .held) (hslot : slot = { old with phase := .running (.unwind b), starts := old.starts + 1 })
      (hb : s.bulks[b]? = some bulk) (hfinished : bulk.finished = false) (hrunning : bulk.running = none)
      (hremaining : bulk.remaining = i :: rest)
  | handleEnded (old : ScopeSlot) (h : s.slots[i]? = some old) (hrunning : old.phase = .running .handle)
      (hslot : slot = { old with phase := .done .handle })
  | unwindEnded (old : ScopeSlot) (b : Nat) (bulk : BulkUnwind) (h : s.slots[i]? = some old)
      (hb : s.bulks[b]? = some bulk) (hrunning : bulk.running = some i)
      (hslot : slot = { old with phase := .done (.unwind b) })

theorem Stepped.slotChange (h : Stepped s x) {i : Nat} {slot : ScopeSlot} (hslot : x.slots[i]? = some slot) :
    SlotChange s i slot := by
  cases h with
  | stays | created | called | begun | closed | skipped | bulkFinished | awaited | closing | disposalFinished |
      returned =>
    exact .same hslot
  | pushed scope haccepting =>
    rcases getElem?_concat_cases hslot with hold | ⟨-, rfl⟩
    · exact .same hold
    · exact .pushed rfl haccepting
  | taken j old hold hheld =>
    rcases getElem?_modify_cases hslot with ⟨rfl, old', hold', hnew⟩ | ⟨-, hold'⟩
    · obtain rfl := Option.some.inj (hold.symm.trans hold')
      exact .taken old hold hheld hnew
    · exact .same hold'
  | handleEnded j old hold hrunning =>
    rcases getElem?_modify_cases hslot with ⟨rfl, old', hold', hnew⟩ | ⟨-, hold'⟩
    · obtain rfl := Option.some.inj (hold.symm.trans hold')
      exact .handleEnded old hold hrunning hnew
    · exact .same hold'
  | unwound b bulk j rest old hb hfinished hrunning hremaining hold hheld =>
    rcases getElem?_modify_cases hslot with ⟨rfl, old', hold', hnew⟩ | ⟨-, hold'⟩
    · obtain rfl := Option.some.inj (hold.symm.trans hold')
      exact .unwound old b bulk rest hold hheld hnew hb hfinished hrunning hremaining
    · exact .same hold'
  | unwindEnded b bulk j hb _ hrunning =>
    rcases getElem?_modify_cases hslot with ⟨rfl, old, hold, hnew⟩ | ⟨-, hold⟩
    · exact .unwindEnded old b bulk hold hb hrunning hnew
    · exact .same hold

/-- A slot that is held was there before, or it is new. -/
theorem SlotChange.held {i : Nat} {slot : ScopeSlot} (h : SlotChange s i slot) (hheld : slot.phase = .held) :
    s.slots[i]? = some slot ∨ s.isAccepting slot.scope = true := by
  cases h with
  | same hold => exact .inl hold
  | pushed _ haccepting => exact .inr haccepting
  | taken old _ _ hnew | unwound old _ _ _ _ _ hnew | handleEnded old _ _ hnew | unwindEnded old _ _ _ _ _ hnew =>
    rw [hnew] at hheld
    cases hheld

/-! ## What every step keeps -/

/-- What a step does to a scope that was there. -/
structure NodeStep (node node' : ScopeNode) : Prop where
  parent : node'.parent = node.parent
  depth : node'.depth = node.depth
  active : node'.active = true → node.active = true
  accepting : node'.accepting = true → node.accepting = true

/-- What a step does to a slot that was there. -/
structure SlotStep (slot slot' : ScopeSlot) : Prop where
  scope : slot'.scope = slot.scope
  settled : IsSettled slot.phase → IsSettled slot'.phase

/-- What every step does: scopes and slots stay, and new slots are those of
scopes that accept them. -/
structure Grows (s x : ScopeTree) : Prop where
  scopes : ∀ (d : Nat) (node : ScopeNode), s.scopes[d]? = some node →
    ∃ node', x.scopes[d]? = some node' ∧ NodeStep node node'
  slots : ∀ (i : Nat) (slot : ScopeSlot), x.slots[i]? = some slot →
    (∃ old, s.slots[i]? = some old ∧ SlotStep old slot) ∨ s.isAccepting slot.scope = true
  kept : ∀ (i : Nat) (slot : ScopeSlot), s.slots[i]? = some slot →
    ∃ slot', x.slots[i]? = some slot' ∧ slot'.scope = slot.scope

theorem NodeStep.refl (node : ScopeNode) : NodeStep node node := ⟨rfl, rfl, id, id⟩

theorem SlotStep.refl (slot : ScopeSlot) : SlotStep slot slot := ⟨rfl, id⟩

theorem settled_running_handle : IsSettled (.running .handle) := ⟨SlotPhase.noConfusion, by simp⟩

theorem settled_done (starter : Starter) : IsSettled (.done starter) := ⟨SlotPhase.noConfusion, by simp⟩

theorem SlotChange.grows {i : Nat} {slot : ScopeSlot} (h : SlotChange s i slot) :
    (∃ old, s.slots[i]? = some old ∧ SlotStep old slot) ∨ s.isAccepting slot.scope = true := by
  cases h with
  | same hold => exact .inl ⟨slot, hold, .refl slot⟩
  | pushed _ haccepting => exact .inr haccepting
  | taken old hold _ hnew => exact .inl ⟨old, hold, hnew ▸ ⟨rfl, fun _ => settled_running_handle⟩⟩
  | unwound old b _ _ hold hheld hnew => exact .inl ⟨old, hold, hnew ▸ ⟨rfl, fun hsettled => absurd hheld hsettled.1⟩⟩
  | handleEnded old hold _ hnew => exact .inl ⟨old, hold, hnew ▸ ⟨rfl, fun _ => settled_done _⟩⟩
  | unwindEnded old b _ hold _ _ hnew => exact .inl ⟨old, hold, hnew ▸ ⟨rfl, fun _ => settled_done _⟩⟩

/-- The scopes when a disposal has begun. -/
theorem getElem?_begun (s : ScopeTree) (root d : Nat) :
    (s.begun root).scopes[d]? = s.scopes[d]?.map fun node =>
      let node := if d ∈ s.collectSubtree root then { node with active := false, accepting := false } else node
      if root = d then { node with inFlightDisposal := some s.disposals.length } else node := by
  simp only [begun, called, beginDisposal, List.getElem?_modify, List.getElem?_mapIdx]
  cases s.scopes[d]? with
  | none => rfl
  | some node => rfl

theorem Stepped.scopes (h : Stepped s x) (d : Nat) (node : ScopeNode) (hnode : s.scopes[d]? = some node) :
    ∃ node', x.scopes[d]? = some node' ∧ NodeStep node node' := by
  cases h with
  | stays | pushed | called | taken | handleEnded | unwound | skipped | unwindEnded | awaited | returned =>
    exact ⟨node, hnode, .refl node⟩
  | created parent depth =>
    refine ⟨node, ?_, .refl node⟩
    rw [createScope, List.getElem?_append_left (List.getElem?_eq_some_iff.mp hnode).1, hnode]
  | begun root =>
    rw [getElem?_begun, hnode]
    refine ⟨_, rfl, ?_⟩
    simp only
    split
    · split
      · exact ⟨rfl, rfl, nofun, nofun⟩
      · exact ⟨rfl, rfl, id, id⟩
    · split
      · exact ⟨rfl, rfl, nofun, nofun⟩
      · exact .refl node
  | closed | closing => exact exists_getElem?_modify hnode (.refl node) fun _ => ⟨rfl, rfl, id, nofun⟩
  | bulkFinished | disposalFinished => exact exists_getElem?_modify hnode (.refl node) fun _ => ⟨rfl, rfl, id, id⟩

theorem Stepped.kept (h : Stepped s x) (i : Nat) (slot : ScopeSlot) (hslot : s.slots[i]? = some slot) :
    ∃ slot', x.slots[i]? = some slot' ∧ slot'.scope = slot.scope := by
  cases h with
  | stays | created | called | begun | closed | skipped | bulkFinished | awaited | closing | disposalFinished |
      returned =>
    exact ⟨slot, hslot, rfl⟩
  | pushed scope =>
    refine ⟨slot, ?_, rfl⟩
    rw [push, List.getElem?_append_left (List.getElem?_eq_some_iff.mp hslot).1, hslot]
  | taken | handleEnded | unwound | unwindEnded => exact exists_getElem?_modify hslot rfl fun _ => rfl

theorem Stepped.grows (h : Stepped s x) : Grows s x := ⟨h.scopes, fun _ _ hslot => (h.slotChange hslot).grows, h.kept⟩

/-! ## What growing keeps -/

theorem Grows.length_le (h : Grows s x) : s.scopes.length ≤ x.scopes.length := by
  by_contra hlt
  rw [Nat.not_le] at hlt
  obtain ⟨node', hnode', -⟩ := h.scopes x.scopes.length _ (List.getElem?_eq_getElem hlt)
  exact Nat.lt_irrefl _ (List.getElem?_eq_some_iff.mp hnode').1

theorem Grows.node (h : Grows s x) {d : Nat} (hd : d < s.scopes.length) :
    ∃ node node', s.scopes[d]? = some node ∧ x.scopes[d]? = some node' ∧ NodeStep node node' := by
  have hnode := List.getElem?_eq_getElem hd
  obtain ⟨node', hnode', hstep⟩ := h.scopes d _ hnode
  exact ⟨_, node', hnode, hnode', hstep⟩

theorem Grows.parent? (h : Grows s x) {d : Nat} (hd : d < s.scopes.length) : x.parent? d = s.parent? d := by
  obtain ⟨node, node', hnode, hnode', hstep⟩ := h.node hd
  simp [ScopeTree.parent?, hnode, hnode', hstep.parent]

theorem Grows.depth (h : Grows s x) {d : Nat} (hd : d < s.scopes.length) : x.depth d = s.depth d := by
  obtain ⟨node, node', hnode, hnode', hstep⟩ := h.node hd
  simp [ScopeTree.depth, hnode, hnode', hstep.depth]

theorem Grows.isActive (h : Grows s x) {d : Nat} (hd : d < s.scopes.length) (hactive : s.isActive d = false) :
    x.isActive d = false := by
  obtain ⟨node, node', hnode, hnode', hstep⟩ := h.node hd
  simp only [ScopeTree.isActive, hnode, hnode', Option.map_some, Option.getD_some] at hactive ⊢
  by_contra hnot
  rw [hstep.active (by simpa using hnot)] at hactive
  cases hactive

theorem Grows.isAccepting (h : Grows s x) {d : Nat} (hd : d < s.scopes.length) (haccepting : s.isAccepting d = false) :
    x.isAccepting d = false := by
  obtain ⟨node, node', hnode, hnode', hstep⟩ := h.node hd
  simp only [ScopeTree.isAccepting, hnode, hnode', Option.map_some, Option.getD_some] at haccepting ⊢
  by_contra hnot
  rw [hstep.accepting (by simpa using hnot)] at haccepting
  cases haccepting

/-- A settled scope stays settled. -/
theorem Grows.settled (h : Grows s x) {d : Nat} (hd : d < s.scopes.length) (hsettled : Settled s d) : Settled x d := by
  refine ⟨h.isAccepting hd hsettled.stopped, fun i slot hslot hscope => ?_⟩
  rcases h.slots i slot hslot with ⟨old, hold, hstep⟩ | haccepting
  · exact hstep.settled (hsettled.slots i old hold (hstep.scope.symm.trans hscope))
  · rw [hscope, hsettled.stopped] at haccepting
    cases haccepting

theorem Grows.atOrBelow (h : Grows s x) {r d : Nat} (hd : s.AtOrBelow r d) : x.AtOrBelow r d := by
  induction hd with
  | refl => exact .refl
  | step hparent _ ih => exact .step ((h.parent? (lt_of_parent? hparent)).trans hparent) ih

theorem Grows.atOrBelow_iff (h : Grows s x) (hordered : Forest.Ordered s.parent? s.scopes.length) {r d : Nat}
    (hd : d < s.scopes.length) : x.AtOrBelow r d ↔ s.AtOrBelow r d := by
  refine ⟨fun hbelow => ?_, h.atOrBelow⟩
  induction hbelow with
  | refl => exact .refl
  | step hparent _ ih =>
    rw [h.parent? hd] at hparent
    exact .step hparent (ih ((hordered.lt hparent).trans hd))

/-! ## Steps that keep who is active -/

/-- A step that neither creates a scope, nor makes one inactive, nor begins a
disposal. -/
structure Quiet (s x : ScopeTree) : Prop where
  length : x.scopes.length = s.scopes.length
  disposals : x.disposals.length = s.disposals.length
  active : ∀ d, x.isActive d = s.isActive d
  own : ∀ d w : Nat, x.inFlightDisposal? d = some w → s.inFlightDisposal? d = some w

theorem Quiet.of_eq (hscopes : x.scopes = s.scopes) (hdisposals : x.disposals.length = s.disposals.length) :
    Quiet s x := by
  refine ⟨by rw [hscopes], hdisposals, fun d => ?_, fun d w hd => ?_⟩
  · rw [isActive, isActive, hscopes]
  · rwa [inFlightDisposal?, hscopes] at hd

theorem Quiet.modify {scope : Nat} {f : ScopeNode → ScopeNode} (hscopes : x.scopes = s.scopes.modify scope f)
    (hdisposals : x.disposals.length = s.disposals.length) (hactive : ∀ node, (f node).active = node.active)
    (hown : ∀ node w, (f node).inFlightDisposal = some w → node.inFlightDisposal = some w) : Quiet s x where
  length := by rw [hscopes, List.length_modify]
  disposals := hdisposals
  active d := by
    rw [isActive, isActive, hscopes]
    exact read_modify (fun node => (node.map ScopeNode.active).getD false) hactive
  own d w hd := by
    rw [inFlightDisposal?, hscopes, Option.bind_eq_some_iff] at hd
    obtain ⟨node, hnode, hin⟩ := hd
    rw [inFlightDisposal?, Option.bind_eq_some_iff]
    rcases getElem?_modify_cases hnode with ⟨-, old, hold, rfl⟩ | ⟨-, hold⟩
    · exact ⟨old, hold, hown old w hin⟩
    · exact ⟨node, hold, hin⟩

/-- A step that is not quiet creates a scope or begins a disposal. -/
theorem Stepped.quiet (h : Stepped s x) :
    (∃ parent depth, x = s.createScope parent depth ∧
      ∀ p, parent = some p → p < s.scopes.length ∧ s.isActive p = true ∧ depth = s.depth p + 1) ∨
    (∃ root, root < s.scopes.length ∧ x = s.begun root) ∨ Quiet s x := by
  cases h with
  | created parent depth hparent => exact .inl ⟨parent, depth, rfl, hparent⟩
  | begun root hroot => exact .inr (.inl ⟨root, hroot, rfl⟩)
  | stays | pushed | called | taken | handleEnded | unwound | skipped | unwindEnded | returned =>
    exact .inr (.inr (.of_eq rfl rfl))
  | awaited => exact .inr (.inr (.of_eq rfl (List.length_modify _ _ _)))
  | closed => exact .inr (.inr (.modify rfl rfl (fun _ => rfl) fun _ _ => id))
  | closing => exact .inr (.inr (.modify rfl (List.length_modify _ _ _) (fun _ => rfl) fun _ _ => id))
  | bulkFinished => exact .inr (.inr (.modify rfl rfl (fun _ => rfl) fun _ _ => id))
  | disposalFinished w =>
    refine .inr (.inr (.modify rfl (List.length_modify _ _ _) (fun _ => rfl) fun node w' hin => ?_))
    simp only at hin
    split at hin
    · cases hin
    · exact hin

end ScopeTree

end MinionAgent.Rust
