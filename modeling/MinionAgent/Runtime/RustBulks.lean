import MinionAgent.Runtime.RustScopeTree

/-!
# MinionAgent.Runtime.RustBulks

The bulk unwinds of the stores of a Rust scope tree.

* `ScopeTree.Bulks` — every store has at most one in flight, which has all the
  disposers left that the store holds;
* `ScopeTree.Stepped.bulks` — the step lemma.
-/

namespace MinionAgent.Rust

namespace ScopeTree

open Table

variable {s x : ScopeTree}

/-- Every store has at most one bulk unwind in flight, which has all the
disposers left that it holds, the newest first. -/
structure Bulks (s : ScopeTree) : Prop where
  flight : ∀ (b : Nat) (bulk : BulkUnwind), s.bulks[b]? = some bulk → bulk.finished = false →
    s.inFlightUnwind? bulk.scope = some b
  joined : ∀ d b : Nat, s.inFlightUnwind? d = some b →
    ∃ bulk, s.bulks[b]? = some bulk ∧ bulk.scope = d ∧ bulk.finished = false
  stopped : ∀ (b : Nat) (bulk : BulkUnwind), s.bulks[b]? = some bulk →
    bulk.scope < s.scopes.length ∧ s.isAccepting bulk.scope = false
  left : ∀ (b : Nat) (bulk : BulkUnwind), s.bulks[b]? = some bulk → bulk.finished = false →
    ∀ (i : Nat) (slot : ScopeSlot), s.slots[i]? = some slot → slot.scope = bulk.scope → slot.phase = .held →
      i ∈ bulk.remaining
  newestFirst : ∀ (b : Nat) (bulk : BulkUnwind), s.bulks[b]? = some bulk → bulk.remaining.Pairwise (· > ·) ∧
    ∀ i ∈ bulk.remaining, ∃ slot, s.slots[i]? = some slot ∧ slot.scope = bulk.scope
  runs : ∀ (i : Nat) (slot : ScopeSlot) (b : Nat), s.slots[i]? = some slot → slot.phase = .running (.unwind b) →
    ∃ bulk, s.bulks[b]? = some bulk ∧ bulk.scope = slot.scope ∧ bulk.finished = false ∧ bulk.running = some i
  settled : ∀ (b : Nat) (bulk : BulkUnwind), s.bulks[b]? = some bulk → bulk.finished = true → Settled s bulk.scope

theorem bulks_initial : Bulks {} where
  flight := by simp
  joined := by simp [inFlightUnwind?]
  stopped := by simp
  left := by simp
  newestFirst := by simp
  runs := by simp
  settled := by simp

theorem inFlightUnwind?_modify {scope : Nat} {f : ScopeNode → ScopeNode} (hscopes : x.scopes = s.scopes.modify scope f)
    (hf : ∀ node, (f node).inFlightUnwind = node.inFlightUnwind) (d : Nat) :
    x.inFlightUnwind? d = s.inFlightUnwind? d := by
  rw [inFlightUnwind?, inFlightUnwind?, hscopes]
  exact read_modify (·.bind ScopeNode.inFlightUnwind) hf

theorem inFlightUnwind?_createScope (s : ScopeTree) (parent : Option Nat) (depth d : Nat) :
    (s.createScope parent depth).inFlightUnwind? d = s.inFlightUnwind? d := by
  simp only [inFlightUnwind?, createScope, List.getElem?_append]
  grind

theorem inFlightUnwind?_begun (s : ScopeTree) (root d : Nat) :
    (s.begun root).inFlightUnwind? d = s.inFlightUnwind? d := by
  simp only [inFlightUnwind?, getElem?_begun]
  cases s.scopes[d]? with
  | none => rfl
  | some node => grind

theorem inFlightUnwind?_close {scope : Nat} {node : ScopeNode} (hnode : s.scopes[scope]? = some node) (b d : Nat)
    (bulks : List BulkUnwind) :
    (s.close scope b bulks).inFlightUnwind? d = if d = scope then some b else s.inFlightUnwind? d := by
  simp only [inFlightUnwind?, close, List.getElem?_modify]
  by_cases heq : d = scope
  · subst heq
    simp [hnode]
  · simp [heq, Ne.symm heq]

theorem mem_slotsOf {scope i : Nat} : i ∈ s.slotsOf scope ↔ ∃ slot, s.slots[i]? = some slot ∧ slot.scope = scope := by
  rw [slotsOf, List.mem_reverse, List.mem_filter, List.mem_range, beq_iff_eq]
  constructor
  · rintro ⟨-, hscope⟩
    obtain ⟨slot, hslot, heq⟩ := Option.map_eq_some_iff.mp hscope
    exact ⟨slot, hslot, heq⟩
  · rintro ⟨slot, hslot, rfl⟩
    exact ⟨(List.getElem?_eq_some_iff.mp hslot).1, by rw [hslot]; rfl⟩

theorem slotsOf_newestFirst (s : ScopeTree) (scope : Nat) : (s.slotsOf scope).Pairwise (· > ·) := by
  rw [slotsOf, List.pairwise_reverse]
  exact List.pairwise_lt_range.filter _

/-! ## What growing keeps of an unwind -/

theorem Bulks.stopped_of_grows (h : Bulks s) (hgrows : Grows s x) {b : Nat} {bulk : BulkUnwind}
    (hb : s.bulks[b]? = some bulk) : bulk.scope < x.scopes.length ∧ x.isAccepting bulk.scope = false := by
  obtain ⟨hlt, hclosed⟩ := h.stopped b bulk hb
  exact ⟨hlt.trans_le hgrows.length_le, hgrows.isAccepting hlt hclosed⟩

theorem Bulks.settled_of_grows (h : Bulks s) (hgrows : Grows s x) {b : Nat} {bulk : BulkUnwind}
    (hb : s.bulks[b]? = some bulk) (hfinished : bulk.finished = true) : Settled x bulk.scope :=
  hgrows.settled (h.stopped b bulk hb).1 (h.settled b bulk hb hfinished)

/-- The slots an unwind has left stay those of its store. -/
theorem Bulks.newestFirst_of_grows (h : Bulks s) (hgrows : Grows s x) {b : Nat} {bulk : BulkUnwind}
    (hb : s.bulks[b]? = some bulk) : bulk.remaining.Pairwise (· > ·) ∧
      ∀ i ∈ bulk.remaining, ∃ slot, x.slots[i]? = some slot ∧ slot.scope = bulk.scope := by
  refine ⟨(h.newestFirst b bulk hb).1, fun i hi => ?_⟩
  obtain ⟨slot, hslot, hscope⟩ := (h.newestFirst b bulk hb).2 i hi
  obtain ⟨slot', hslot', hsame⟩ := hgrows.kept i slot hslot
  exact ⟨slot', hslot', hsame.trans hscope⟩

/-- No unwind runs that is not the one in flight of its store. -/
theorem Bulks.eq_of_runs (h : Bulks s) {b b' i : Nat} {bulk : BulkUnwind} {slot : ScopeSlot}
    (hb : s.bulks[b]? = some bulk) (hfinished : bulk.finished = false) (hslot : s.slots[i]? = some slot)
    (hscope : slot.scope = bulk.scope) (hrunning : slot.phase = .running (.unwind b')) : bulk.running = some i := by
  obtain ⟨bulk', hb', hscope', hunfinished, hruns⟩ := h.runs i slot b' hslot hrunning
  have hflight := h.flight b' bulk' hb' hunfinished
  rw [hscope', hscope, h.flight b bulk hb hfinished] at hflight
  cases hflight
  rw [hb] at hb'
  cases hb'
  exact hruns

/-! ## Steps -/

/-- A step that leaves the bulk unwinds alone. -/
theorem Bulks.keep (h : Bulks s) (hstep : Stepped s x) (hbulks : x.bulks = s.bulks)
    (hflight : ∀ d, x.inFlightUnwind? d = s.inFlightUnwind? d)
    (hruns : ∀ (i : Nat) (slot : ScopeSlot) (b : Nat), x.slots[i]? = some slot → slot.phase = .running (.unwind b) →
      s.slots[i]? = some slot) : Bulks x where
  flight b bulk hb hfinished := by
    rw [hflight]
    exact h.flight b bulk (hbulks ▸ hb) hfinished
  joined d b hd := by
    rw [hflight] at hd
    rw [hbulks]
    exact h.joined d b hd
  stopped b bulk hb := h.stopped_of_grows hstep.grows (hbulks ▸ hb)
  left b bulk hb hfinished i slot hslot hscope hheld := by
    rw [hbulks] at hb
    rcases (hstep.slotChange hslot).held hheld with hold | hopen
    · exact h.left b bulk hb hfinished i slot hold hscope hheld
    · rw [hscope, (h.stopped b bulk hb).2] at hopen
      cases hopen
  newestFirst b bulk hb := h.newestFirst_of_grows hstep.grows (hbulks ▸ hb)
  runs i slot b hslot hrunning := by
    rw [hbulks]
    exact h.runs i slot b (hruns i slot b hslot hrunning) hrunning
  settled b bulk hb := h.settled_of_grows hstep.grows (hbulks ▸ hb)

/-- A store is closed: the unwind in flight is joined, or one begins. -/
theorem Bulks.close (h : Bulks s) {scope b : Nat} {node : ScopeNode} {bulks : List BulkUnwind} {disposal : Option Nat}
    (hnode : s.scopes[scope]? = some node) (hopens : s.Opens scope node disposal b bulks)
    (hstep : Stepped s x) (hscopes : x.scopes = (s.close scope b bulks).scopes) (hslots : x.slots = s.slots)
    (hx : x.bulks = bulks) : Bulks x := by
  have hflight (d : Nat) : x.inFlightUnwind? d = if d = scope then some b else s.inFlightUnwind? d := by
    rw [← inFlightUnwind?_close hnode b d bulks, inFlightUnwind?, inFlightUnwind?, hscopes]
  have hscope : s.inFlightUnwind? scope = node.inFlightUnwind := by simp [inFlightUnwind?, hnode]
  rcases hopens with ⟨hjoined, rfl⟩ | ⟨hnone, rfl, rfl⟩
  · refine h.keep hstep hx (fun d => ?_) fun i slot b hslot _ => hslots ▸ hslot
    rw [hflight]
    split
    · next heq => rw [heq, hscope, hjoined]
    · rfl
  · have hkeep {b : Nat} {bulk : BulkUnwind} (hb : s.bulks[b]? = some bulk) : x.bulks[b]? = some bulk := by
      rw [hx, List.getElem?_append_left (List.getElem?_eq_some_iff.mp hb).1, hb]
    refine ⟨?_, fun d b hd => ?_, ?_, ?_, ?_, ?_, ?_⟩
    · rw [hx]
      refine forall_concat (fun b bulk hb hfinished => ?_) fun _ => by rw [hflight, if_pos rfl]
      have hbefore := h.flight b bulk hb hfinished
      rw [hflight, if_neg fun heq => ?_]
      · exact hbefore
      · rw [heq, hscope, hnone] at hbefore
        cases hbefore
    · rw [hflight] at hd
      split at hd
      · next heq =>
        cases hd
        exact ⟨_, by rw [hx, List.getElem?_concat_length], heq.symm, rfl⟩
      · obtain ⟨bulk, hb, hrest⟩ := h.joined d b hd
        exact ⟨bulk, hkeep hb, hrest⟩
    · rw [hx]
      refine forall_concat (fun b bulk hb => h.stopped_of_grows hstep.grows hb) ?_
      refine ⟨(List.getElem?_eq_some_iff.mp hnode).1.trans_le hstep.grows.length_le, ?_⟩
      simp [isAccepting, hscopes, ScopeTree.close, hnode]
    · rw [hx, hslots]
      exact forall_concat h.left fun _ i slot hslot hscope _ => mem_slotsOf.mpr ⟨slot, hslot, hscope⟩
    · rw [hx, hslots]
      exact forall_concat h.newestFirst ⟨slotsOf_newestFirst s scope, fun i hi => mem_slotsOf.mp hi⟩
    · rw [hslots]
      intro i slot b hslot hrunning
      obtain ⟨bulk, hb, hrest⟩ := h.runs i slot b hslot hrunning
      exact ⟨bulk, hkeep hb, hrest⟩
    · rw [hx]
      exact forall_concat (fun b bulk hb => h.settled_of_grows hstep.grows hb) (by simp)

/-- The bulk unwind in flight goes on, with the slots it leaves and with the
disposer it runs, or it ends with nothing left of its store. -/
theorem Bulks.change (h : Bulks s) (hstep : Stepped s x) {b : Nat} {bulk bulk' : BulkUnwind}
    (hchanged : Changed s.bulks x.bulks b bulk bulk') (hfinished : bulk.finished = false)
    (hscope : bulk'.scope = bulk.scope)
    (hflight : ∀ d, x.inFlightUnwind? d = if d = bulk.scope ∧ bulk'.finished then none else s.inFlightUnwind? d)
    (hremaining : bulk'.remaining <:+ bulk.remaining)
    (hleft : ∀ (i : Nat) (slot : ScopeSlot), x.slots[i]? = some slot → slot.phase = .held → i ∈ bulk.remaining →
      i ∈ bulk'.remaining)
    (hruns : ∀ (i : Nat) (slot : ScopeSlot) (b' : Nat), x.slots[i]? = some slot → slot.phase = .running (.unwind b') →
      b' = b ∧ slot.scope = bulk.scope ∧ bulk'.finished = false ∧ bulk'.running = some i ∨
        b' ≠ b ∧ s.slots[i]? = some slot)
    (hsettled : bulk'.finished = true → Settled s bulk.scope) : Bulks x where
  flight := by
    refine hchanged.forall_of_ne (fun b' bulk₁ hne hold hunfinished => ?_) fun hunfinished => ?_
    · have hbefore := h.flight b' bulk₁ hold hunfinished
      rw [hflight, if_neg fun hat => ?_]
      · exact hbefore
      · rw [hat.1, h.flight b bulk hchanged.before hfinished] at hbefore
        exact hne (Option.some.inj hbefore).symm
    · rw [hflight, if_neg (by simp [hunfinished]), hscope]
      exact h.flight b bulk hchanged.before hfinished
  joined d b' hd := by
    rw [hflight] at hd
    split at hd
    · cases hd
    · next hnot =>
      obtain ⟨bulk₁, hb', rfl, hunfinished⟩ := h.joined d b' hd
      by_cases heq : b' = b
      · subst heq
        obtain rfl := Option.some.inj (hchanged.before.symm.trans hb')
        exact ⟨bulk', hchanged.after, hscope, by simpa using hnot⟩
      · exact ⟨bulk₁, by rw [hchanged.others b' heq, hb'], rfl, hunfinished⟩
  stopped := hchanged.forall (fun b' bulk₁ hb' => h.stopped_of_grows hstep.grows hb')
    (hscope ▸ h.stopped_of_grows hstep.grows hchanged.before)
  left := by
    have hheld {b' i : Nat} {bulk₁ : BulkUnwind} {slot : ScopeSlot} (hb' : s.bulks[b']? = some bulk₁)
        (hunfinished : bulk₁.finished = false) (hslot : x.slots[i]? = some slot) (hscope : slot.scope = bulk₁.scope)
        (hphase : slot.phase = .held) : i ∈ bulk₁.remaining := by
      rcases (hstep.slotChange hslot).held hphase with hold | hopen
      · exact h.left b' bulk₁ hb' hunfinished i slot hold hscope hphase
      · rw [hscope, (h.stopped b' bulk₁ hb').2] at hopen
        cases hopen
    refine hchanged.forall (fun b' bulk₁ hb' hunfinished i slot hslot => hheld hb' hunfinished hslot)
      fun hunfinished i slot hslot hat hphase => ?_
    exact hleft i slot hslot hphase (hheld hchanged.before hfinished hslot (hat.trans hscope) hphase)
  newestFirst := by
    refine hchanged.forall (fun b' bulk₁ hb' => h.newestFirst_of_grows hstep.grows hb') ?_
    obtain ⟨hsorted, hslots⟩ := h.newestFirst_of_grows hstep.grows hchanged.before
    exact ⟨hsorted.sublist hremaining.sublist, fun i hi => hscope ▸ hslots i (hremaining.subset hi)⟩
  runs i slot b' hslot hphase := by
    rcases hruns i slot b' hslot hphase with ⟨rfl, hat, hunfinished, hrunning⟩ | ⟨hne, hold⟩
    · exact ⟨bulk', hchanged.after, hscope.trans hat.symm, hunfinished, hrunning⟩
    · obtain ⟨bulk₁, hb', hrest⟩ := h.runs i slot b' hold hphase
      exact ⟨bulk₁, by rw [hchanged.others b' hne, hb'], hrest⟩
  settled := by
    refine hchanged.forall (fun b' bulk₁ hb' => h.settled_of_grows hstep.grows hb') fun hdone => ?_
    rw [hscope]
    exact hstep.grows.settled (h.stopped b bulk hchanged.before).1 (hsettled hdone)

/-- The store of an unwind with nothing left is settled. -/
theorem Bulks.settled_of_done (h : Bulks s) {b : Nat} {bulk : BulkUnwind} (hb : s.bulks[b]? = some bulk)
    (hfinished : bulk.finished = false) (hrunning : bulk.running = none) (hremaining : bulk.remaining = []) :
    Settled s bulk.scope := by
  refine ⟨(h.stopped b bulk hb).2, fun i slot hslot hscope => ⟨fun hheld => ?_, fun b' hrun => ?_⟩⟩
  · have hleft := h.left b bulk hb hfinished i slot hslot hscope hheld
    rw [hremaining] at hleft
    cases hleft
  · have hruns := h.eq_of_runs hb hfinished hslot hscope hrun
    rw [hrunning] at hruns
    cases hruns

theorem inFlightUnwind?_finishBulk (h : Bulks s) {b : Nat} {bulk : BulkUnwind} (hb : s.bulks[b]? = some bulk)
    (hfinished : bulk.finished = false) (d : Nat) :
    (s.finishBulk b bulk).inFlightUnwind? d = if d = bulk.scope then none else s.inFlightUnwind? d := by
  have hflight := h.flight b bulk hb hfinished
  simp only [inFlightUnwind?, ScopeTree.finishBulk, List.getElem?_modify] at hflight ⊢
  by_cases heq : d = bulk.scope
  · subst heq
    obtain ⟨node, hnode, hin⟩ := Option.bind_eq_some_iff.mp hflight
    simp [hnode, hin]
  · simp [heq, Ne.symm heq]

/-- An unwind that runs no disposer is not the one that runs this slot. -/
theorem Bulks.ne_of_runs (h : Bulks s) {b b' i : Nat} {bulk : BulkUnwind} {slot : ScopeSlot}
    (hb : s.bulks[b]? = some bulk) (hrunning : bulk.running ≠ some i) (hslot : s.slots[i]? = some slot)
    (hphase : slot.phase = .running (.unwind b')) : b' ≠ b := by
  intro hsame
  subst hsame
  obtain ⟨bulk', hb', -, -, hruns⟩ := h.runs i slot b' hslot hphase
  rw [hb] at hb'
  cases hb'
  exact hrunning hruns

theorem Stepped.bulks (hstep : Stepped s x) (h : Bulks s) : Bulks x := by
  have hsame := hstep
  cases hstep with
  | stays | called | awaited | returned => exact h.keep hsame rfl (fun _ => rfl) fun _ _ _ hslot _ => hslot
  | created parent depth =>
    exact h.keep hsame rfl (inFlightUnwind?_createScope s parent depth) fun _ _ _ hslot _ => hslot
  | begun root => exact h.keep hsame rfl (inFlightUnwind?_begun s root) fun _ _ _ hslot _ => hslot
  | disposalFinished =>
    exact h.keep hsame rfl (inFlightUnwind?_modify rfl fun _ => rfl) fun _ _ _ hslot _ => hslot
  | pushed =>
    refine h.keep hsame rfl (fun _ => rfl) fun i slot b hslot hrunning => ?_
    rcases getElem?_concat_cases hslot with hold | ⟨-, rfl⟩
    · exact hold
    · cases hrunning
  | taken | handleEnded =>
    refine h.keep hsame rfl (fun _ => rfl) fun i slot b hslot hrunning => ?_
    rcases getElem?_modify_cases hslot with ⟨-, old, -, rfl⟩ | ⟨-, hold⟩
    · cases hrunning
    · exact hold
  | closed scope node b bulks hnode hopens => exact h.close hnode hopens hsame rfl rfl rfl
  | closing w u scope rest node b bulks _ _ _ hnode hopens => exact h.close hnode hopens hsame rfl rfl rfl
  | unwound b bulk i rest slot hb hfinished hrunning hremaining hslot hheld =>
    have hsuffix : rest <:+ bulk.remaining := hremaining ▸ List.suffix_cons i rest
    refine h.change hsame (changed_modify hb _) hfinished rfl (fun d => ?_) hsuffix (fun j slot' hslot' hheld' hj => ?_)
      (fun j slot' b' hslot' hrun => ?_) (fun hdone => ?_)
    · rw [if_neg (by simp [hfinished])]
      rfl
    · rcases getElem?_modify_cases hslot' with ⟨-, old, -, rfl⟩ | ⟨hne, -⟩
      · cases hheld'
      · rw [hremaining] at hj
        exact (List.mem_cons.mp hj).resolve_left (Ne.symm hne)
    · rcases getElem?_modify_cases hslot' with ⟨rfl, old, hold, rfl⟩ | ⟨hne, hold⟩
      · cases hrun
        obtain ⟨slot', hslot', hscope⟩ := (h.newestFirst b bulk hb).2 i (by rw [hremaining]; exact List.mem_cons_self)
        obtain rfl := Option.some.inj (hold.symm.trans hslot')
        exact .inl ⟨rfl, hscope, hfinished, rfl⟩
      · exact .inr ⟨h.ne_of_runs hb (by simp [hrunning]) hold hrun, hold⟩
    · rw [hfinished] at hdone
      cases hdone
  | skipped b bulk i rest hb hfinished hrunning hremaining htaken =>
    have hsuffix : rest <:+ bulk.remaining := hremaining ▸ List.suffix_cons i rest
    refine h.change hsame (changed_modify hb _) hfinished rfl (fun d => ?_) hsuffix (fun j slot hslot hheld hj => ?_)
      (fun j slot b' hslot hrun => .inr ⟨h.ne_of_runs hb (by simp [hrunning]) hslot hrun, hslot⟩) (fun hdone => ?_)
    · rw [if_neg (by simp [hfinished])]
      rfl
    · rw [hremaining] at hj
      refine (List.mem_cons.mp hj).resolve_left fun heq => htaken ?_
      subst heq
      change s.slots[j]? = some slot at hslot
      rw [hslot, Option.map_some, hheld]
    · rw [hfinished] at hdone
      cases hdone
  | unwindEnded b bulk i hb hfinished hrunning =>
    refine h.change hsame (changed_modify hb _) hfinished rfl (fun d => ?_) (List.suffix_refl _) (fun _ _ _ _ => id)
      (fun j slot b' hslot hrun => ?_) (fun hdone => ?_)
    · rw [if_neg (by simp [hfinished])]
      rfl
    · rcases getElem?_modify_cases hslot with ⟨-, old, -, rfl⟩ | ⟨hne, hold⟩
      · cases hrun
      · exact .inr ⟨h.ne_of_runs hb (by simpa [hrunning] using hne) hold hrun, hold⟩
    · rw [hfinished] at hdone
      cases hdone
  | bulkFinished b bulk hb hfinished hrunning hremaining =>
    refine h.change hsame (changed_modify hb _) hfinished rfl (fun d => ?_) (List.suffix_refl _) (fun _ _ _ _ => id)
      (fun j slot b' hslot hrun => .inr ⟨h.ne_of_runs hb (by simp [hrunning]) hslot hrun, hslot⟩)
      (fun _ => h.settled_of_done hb hfinished hrunning hremaining)
    rw [inFlightUnwind?_finishBulk h hb hfinished]
    simp

end ScopeTree

end MinionAgent.Rust
