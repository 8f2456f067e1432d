import MinionAgent.Runtime.RustBulks

/-!
# MinionAgent.Runtime.RustDisposals

The disposals of a Rust scope tree.

* `ScopeTree.Covered` — a disposal has settled every scope below its root that
  it does not have left, the deepest first;
* `ScopeTree.Disposals` — this of every disposal, with the unwinds they began;
* `ScopeTree.Stepped.disposals` — the step lemma.
-/

namespace MinionAgent.Rust

namespace ScopeTree

open Table

variable {s x : ScopeTree}

/-- The disposal began a bulk unwind of the scope: every deeper scope below the
root of it is settled. -/
def BegunBy (s : ScopeTree) (w scope : Nat) : Prop :=
  ∃ u, s.disposals[w]? = some u ∧ s.AtOrBelow u.root scope ∧
    ∀ d, s.AtOrBelow u.root d → s.depth scope < s.depth d → Settled s d

/-- A disposal has settled every scope below its root that it does not have
left, the deepest first. -/
structure Covered (s : ScopeTree) (u : ScopeUnwind) : Prop where
  root : u.root < s.scopes.length
  inactive : s.isActive u.root = false
  covers : ∀ d, s.AtOrBelow u.root d → u.finished = false ∧ d ∈ u.remaining ∨ Settled s d
  below : ∀ d ∈ u.remaining, d < s.scopes.length ∧ s.AtOrBelow u.root d
  deepestFirst : u.remaining.Pairwise fun a b => s.depth b ≤ s.depth a

/-- What every run keeps of the disposals. -/
structure Disposals (s : ScopeTree) : Prop where
  covered : ∀ (w : Nat) (u : ScopeUnwind), s.disposals[w]? = some u → Covered s u
  awaits : ∀ (w : Nat) (u : ScopeUnwind) (b : Nat), s.disposals[w]? = some u → u.awaiting = some b →
    ∃ bulk rest, s.bulks[b]? = some bulk ∧ u.remaining = bulk.scope :: rest
  origin : ∀ (b : Nat) (bulk : BulkUnwind) (w : Nat), s.bulks[b]? = some bulk → bulk.disposal = some w →
    BegunBy s w bulk.scope
  inactive : ∀ d, d < s.scopes.length → s.isActive d = false →
    ∃ (w : Nat) (u : ScopeUnwind), s.disposals[w]? = some u ∧ s.AtOrBelow u.root d
  own : ∀ d w : Nat, s.inFlightDisposal? d = some w → ∃ u, s.disposals[w]? = some u ∧ u.root = d

theorem disposals_initial : Disposals {} where
  covered := by simp
  awaits := by simp
  origin := by simp
  inactive := by simp
  own := by simp [inFlightDisposal?]

/-! ## What growing keeps -/

/-- What is below an inactive scope after a step was below it before. -/
theorem below_of_grows (htree : Tree s) (hx : Tree x) (hgrows : Grows s x) {r d : Nat} (hr : r < s.scopes.length)
    (hinactive : s.isActive r = false) (hnew : ∀ d, s.scopes.length ≤ d → d < x.scopes.length → x.isActive d = true)
    (hd : x.AtOrBelow r d) : d < s.scopes.length ∧ s.AtOrBelow r d := by
  have hlt : d < s.scopes.length := by
    by_contra hge
    rw [Nat.not_lt] at hge
    have hdx : d < x.scopes.length := hd.lt hx.ordered (hr.trans_le hgrows.length_le)
    have hactive := hnew d hge hdx
    rw [hx.inactive_below (hgrows.isActive hr hinactive) hd] at hactive
    cases hactive
  exact ⟨hlt, (hgrows.atOrBelow_iff htree.ordered hlt).mp hd⟩

theorem Grows.deepestFirst (h : Grows s x) {scopes : List Nat} (hlt : ∀ d ∈ scopes, d < s.scopes.length)
    (hscopes : scopes.Pairwise fun a b => s.depth b ≤ s.depth a) :
    scopes.Pairwise fun a b => x.depth b ≤ x.depth a := by
  refine hscopes.imp_of_mem fun {a b} ha hb hle => ?_
  rw [h.depth (hlt a ha), h.depth (hlt b hb)]
  exact hle

theorem Covered.grows {u : ScopeUnwind} (h : Covered s u) (htree : Tree s) (hx : Tree x) (hgrows : Grows s x)
    (hnew : ∀ d, s.scopes.length ≤ d → d < x.scopes.length → x.isActive d = true) : Covered x u where
  root := h.root.trans_le hgrows.length_le
  inactive := hgrows.isActive h.root h.inactive
  covers := by
    intro d hd
    obtain ⟨hlt, hbelow⟩ := below_of_grows htree hx hgrows h.root h.inactive hnew hd
    exact (h.covers d hbelow).imp id (hgrows.settled hlt)
  below := by
    intro d hd
    obtain ⟨hlt, hbelow⟩ := h.below d hd
    exact ⟨hlt.trans_le hgrows.length_le, hgrows.atOrBelow hbelow⟩
  deepestFirst := hgrows.deepestFirst (fun d hd => (h.below d hd).1) h.deepestFirst

/-- A disposal goes on: what it no longer has left is settled. -/
structure Goes (s x : ScopeTree) (u u' : ScopeUnwind) : Prop where
  root : u'.root = u.root
  remaining : u'.remaining <:+ u.remaining
  settled : ∀ d ∈ u.remaining, u.finished = false → u'.finished = false ∧ d ∈ u'.remaining ∨ Settled s d
  awaits : ∀ b, u'.awaiting = some b → ∃ bulk rest, x.bulks[b]? = some bulk ∧ u'.remaining = bulk.scope :: rest

theorem Covered.goes {u u' : ScopeUnwind} (h : Covered s u) (hgoes : Goes s x u u') : Covered s u' where
  root := hgoes.root ▸ h.root
  inactive := hgoes.root ▸ h.inactive
  covers := by
    intro d hd
    rw [hgoes.root] at hd
    rcases h.covers d hd with ⟨hunfinished, hleft⟩ | hdone
    · exact hgoes.settled d hleft hunfinished
    · exact .inr hdone
  below := by
    intro d hd
    rw [hgoes.root]
    exact h.below d (hgoes.remaining.subset hd)
  deepestFirst := h.deepestFirst.sublist hgoes.remaining.sublist

/-! ## What a step does to disposals and to who began an unwind -/

/-- Disposals keep their roots and stay finished. -/
theorem Stepped.disposal (hstep : Stepped s x) (w : Nat) (u : ScopeUnwind) (hw : s.disposals[w]? = some u) :
    ∃ u', x.disposals[w]? = some u' ∧ u'.root = u.root ∧ (u.finished = true → u'.finished = true) := by
  cases hstep with
  | stays | created | pushed | called | closed | taken | handleEnded | unwound | skipped | unwindEnded | bulkFinished
      | returned => exact ⟨u, hw, rfl, id⟩
  | begun root =>
    refine ⟨u, ?_, rfl, id⟩
    rw [ScopeTree.begun, ScopeTree.called, beginDisposal,
      List.getElem?_append_left (List.getElem?_eq_some_iff.mp hw).1, hw]
  | awaited | closing => exact exists_getElem?_modify hw ⟨rfl, id⟩ fun _ => ⟨rfl, id⟩
  | disposalFinished => exact exists_getElem?_modify hw ⟨rfl, id⟩ fun _ => ⟨rfl, fun _ => rfl⟩

/-- Bulk unwinds keep their scope. -/
theorem Stepped.bulk (hstep : Stepped s x) (b : Nat) (bulk : BulkUnwind) (hb : s.bulks[b]? = some bulk) :
    ∃ bulk', x.bulks[b]? = some bulk' ∧ bulk'.scope = bulk.scope := by
  have hopened {scope b' : Nat} {node : ScopeNode} {disposal : Option Nat} {bulks : List BulkUnwind}
      (hopens : s.Opens scope node disposal b' bulks) : bulks[b]? = some bulk := by
    rcases hopens with ⟨-, rfl⟩ | ⟨-, -, rfl⟩
    · exact hb
    · rw [List.getElem?_append_left (List.getElem?_eq_some_iff.mp hb).1, hb]
  cases hstep with
  | stays | created | pushed | called | begun | taken | handleEnded | awaited | disposalFinished | returned =>
    exact ⟨bulk, hb, rfl⟩
  | closed scope node b' bulks hnode hopens => exact ⟨bulk, hopened hopens, rfl⟩
  | closing w u scope rest node b' bulks hw hfinished hremaining hnode hopens => exact ⟨bulk, hopened hopens, rfl⟩
  | unwound | skipped | unwindEnded | bulkFinished => exact exists_getElem?_modify hb rfl fun _ => rfl

/-- When a disposal closes the first store it has left, the deeper ones are
settled. -/
theorem Covered.begunBy {w scope : Nat} {u : ScopeUnwind} {rest : List Nat} (h : Covered s u)
    (hw : s.disposals[w]? = some u) (hremaining : u.remaining = scope :: rest) : BegunBy s w scope := by
  have hdeepest := h.deepestFirst
  rw [hremaining] at hdeepest
  refine ⟨u, hw, (h.below scope (by rw [hremaining]; exact List.mem_cons_self)).2, fun d hd hdeeper => ?_⟩
  refine (h.covers d hd).resolve_left fun ⟨_, hin⟩ => ?_
  rw [hremaining] at hin
  rcases List.mem_cons.mp hin with rfl | hrest
  · exact Nat.lt_irrefl _ hdeeper
  · exact Nat.not_le_of_lt hdeeper ((List.pairwise_cons.mp hdeepest).1 d hrest)

theorem Stepped.origin (hstep : Stepped s x) (h : Disposals s) {b : Nat} {bulk : BulkUnwind} {w : Nat}
    (hb : x.bulks[b]? = some bulk) (hdisposal : bulk.disposal = some w) : BegunBy s w bulk.scope := by
  have hopened {scope b' : Nat} {node : ScopeNode} {disposal : Option Nat} {bulks : List BulkUnwind}
      (hopens : s.Opens scope node disposal b' bulks) (hb : bulks[b]? = some bulk)
      (hbegun : disposal = some w → BegunBy s w scope) : BegunBy s w bulk.scope := by
    rcases hopens with ⟨-, rfl⟩ | ⟨-, -, rfl⟩
    · exact h.origin b bulk w hb hdisposal
    · rcases getElem?_concat_cases hb with hold | ⟨-, rfl⟩
      · exact h.origin b bulk w hold hdisposal
      · exact hbegun hdisposal
  cases hstep with
  | stays | created | pushed | called | begun | taken | handleEnded | awaited | disposalFinished | returned =>
    exact h.origin b bulk w hb hdisposal
  | closed scope node b' bulks hnode hopens => exact hopened hopens hb nofun
  | closing w' u scope rest node b' bulks hw hfinished hremaining hnode hopens =>
    refine hopened hopens hb fun hsame => ?_
    obtain rfl := Option.some.inj hsame
    exact (h.covered w' u hw).begunBy hw hremaining
  | unwound | skipped | unwindEnded | bulkFinished =>
    rcases getElem?_modify_cases hb with ⟨-, old, hold, rfl⟩ | ⟨-, hold⟩
    · exact h.origin b old w hold hdisposal
    · exact h.origin b bulk w hold hdisposal

/-- A disposal after a step was there before, or it begins. -/
theorem Stepped.goes (hstep : Stepped s x) (h : Disposals s) (hbulks : Bulks s) {w : Nat} {u' : ScopeUnwind}
    (hw' : x.disposals[w]? = some u') : (∃ u, s.disposals[w]? = some u ∧ Goes s x u u') ∨ w = s.disposals.length := by
  have hsame (hw : s.disposals[w]? = some u') : (∃ u, s.disposals[w]? = some u ∧ Goes s x u u') ∨
      w = s.disposals.length := by
    refine .inl ⟨u', hw, rfl, List.suffix_refl _, fun d hd hunfinished => .inl ⟨hunfinished, hd⟩, fun b hawaiting => ?_⟩
    obtain ⟨bulk, rest, hb, hremaining⟩ := h.awaits w u' b hw hawaiting
    obtain ⟨bulk', hb', hscope⟩ := hstep.bulk b bulk hb
    exact ⟨bulk', rest, hb', hscope ▸ hremaining⟩
  cases hstep with
  | stays | created | pushed | called | closed | taken | handleEnded | unwound | skipped | unwindEnded | bulkFinished
      | returned => exact hsame hw'
  | begun root =>
    rcases getElem?_concat_cases hw' with hold | ⟨rfl, -⟩
    · exact hsame hold
    · exact .inr rfl
  | awaited w' u b bulk hw hfinished hawaiting hb hdone =>
    rcases getElem?_modify_cases hw' with ⟨rfl, old, hold, rfl⟩ | ⟨-, hold⟩
    · obtain rfl := Option.some.inj (hw.symm.trans hold)
      obtain ⟨bulk', rest, hb', hremaining⟩ := h.awaits w' u b hw hawaiting
      obtain rfl := Option.some.inj (hb.symm.trans hb')
      refine .inl ⟨u, hw, rfl, List.tail_suffix _, fun d hd _ => ?_, nofun⟩
      rw [hremaining] at hd
      rcases List.mem_cons.mp hd with rfl | hrest
      · exact .inr (hbulks.settled b bulk hb hdone)
      · exact .inl ⟨hfinished, by rw [hremaining]; exact hrest⟩
    · exact hsame hold
  | closing w' u scope rest node b bulks hw hfinished hremaining hnode hopens =>
    rcases getElem?_modify_cases hw' with ⟨rfl, old, hold, rfl⟩ | ⟨-, hold⟩
    · obtain rfl := Option.some.inj (hw.symm.trans hold)
      refine .inl ⟨u, hw, rfl, List.suffix_refl _, fun d hd hunfinished => .inl ⟨hunfinished, hd⟩,
        fun b' hawaiting => ?_⟩
      obtain rfl := Option.some.inj hawaiting
      rcases hopens with ⟨hjoined, rfl⟩ | ⟨-, rfl, rfl⟩
      · obtain ⟨bulk, hb, hscope, -⟩ := hbulks.joined scope b (by simp [inFlightUnwind?, hnode, hjoined])
        exact ⟨bulk, rest, hb, hscope ▸ hremaining⟩
      · exact ⟨_, rest, List.getElem?_concat_length, hremaining⟩
    · exact hsame hold
  | disposalFinished w' u hw hfinished hawaiting hremaining =>
    rcases getElem?_modify_cases hw' with ⟨rfl, old, hold, rfl⟩ | ⟨-, hold⟩
    · obtain rfl := Option.some.inj (hw.symm.trans hold)
      refine .inl ⟨u, hw, rfl, List.suffix_refl _, fun d hd _ => ?_, fun b hb => ?_⟩
      · rw [hremaining] at hd
        cases hd
      · rw [show u.awaiting = some b from hb] at hawaiting
        cases hawaiting
    · exact hsame hold

theorem BegunBy.grows {w scope : Nat} (h : BegunBy s w scope) (hdisposals : Disposals s) (htree : Tree s) (hx : Tree x)
    (hstep : Stepped s x) (hnew : ∀ d, s.scopes.length ≤ d → d < x.scopes.length → x.isActive d = true) :
    BegunBy x w scope := by
  obtain ⟨u, hw, hscope, hsettled⟩ := h
  have hcovered := hdisposals.covered w u hw
  obtain ⟨u', hw', hroot, -⟩ := hstep.disposal w u hw
  refine ⟨u', hw', hroot ▸ hstep.grows.atOrBelow hscope, fun d hd hdeeper => ?_⟩
  rw [hroot] at hd
  obtain ⟨hlt, hbelow⟩ := below_of_grows htree hx hstep.grows hcovered.root hcovered.inactive hnew hd
  rw [hstep.grows.depth hlt, hstep.grows.depth (hscope.lt htree.ordered hcovered.root)] at hdeeper
  exact hstep.grows.settled hlt (hsettled d hbelow hdeeper)

/-- A step that begins no disposal. -/
theorem Disposals.keep (h : Disposals s) (htree : Tree s) (hstep : Stepped s x)
    (hgoes : ∀ (w : Nat) (u' : ScopeUnwind), x.disposals[w]? = some u' → ∃ u, s.disposals[w]? = some u ∧ Goes s x u u')
    (hactive : ∀ d, d < s.scopes.length → x.isActive d = s.isActive d)
    (hnew : ∀ d, s.scopes.length ≤ d → d < x.scopes.length → x.isActive d = true)
    (hown : ∀ d w : Nat, x.inFlightDisposal? d = some w → s.inFlightDisposal? d = some w) : Disposals x where
  covered := by
    intro w u' hw'
    obtain ⟨u, hw, hgoes⟩ := hgoes w u' hw'
    exact ((h.covered w u hw).goes hgoes).grows htree (hstep.tree htree) hstep.grows hnew
  awaits := by
    intro w u' b hw' hawaiting
    obtain ⟨u, -, hgoes⟩ := hgoes w u' hw'
    exact hgoes.awaits b hawaiting
  origin := by
    intro b bulk w hb hdisposal
    exact (hstep.origin h hb hdisposal).grows h htree (hstep.tree htree) hstep hnew
  inactive := by
    intro d hd hinactive
    by_cases hlt : d < s.scopes.length
    · rw [hactive d hlt] at hinactive
      obtain ⟨w, u, hw, hbelow⟩ := h.inactive d hlt hinactive
      obtain ⟨u', hw', hroot, -⟩ := hstep.disposal w u hw
      exact ⟨w, u', hw', hroot ▸ hstep.grows.atOrBelow hbelow⟩
    · rw [hnew d (Nat.le_of_not_lt hlt) hd] at hinactive
      cases hinactive
  own := by
    intro d w hd
    obtain ⟨u, hw, rfl⟩ := h.own d w (hown d w hd)
    obtain ⟨u', hw', hroot, -⟩ := hstep.disposal w u hw
    exact ⟨u', hw', hroot⟩

/-! ## Disposals that begin -/

theorem mem_sortByDepth {scopes : List Nat} {d : Nat} : d ∈ s.sortByDepth scopes ↔ d ∈ scopes := by
  rw [sortByDepth]
  exact List.mem_insertionSort _

theorem deepestFirst_sortByDepth (scopes : List Nat) :
    (s.sortByDepth scopes).Pairwise fun a b => s.depth b ≤ s.depth a := by
  have htotal : Std.Total fun a b : Nat => s.depth b ≤ s.depth a := ⟨fun a b => Nat.le_total _ _⟩
  have htrans : IsTrans Nat fun a b => s.depth b ≤ s.depth a := ⟨fun a b c hab hbc => hbc.trans hab⟩
  exact List.pairwise_insertionSort _ _

theorem inFlightDisposal?_begun {root d w : Nat} (h : (s.begun root).inFlightDisposal? d = some w) :
    d = root ∧ w = s.disposals.length ∨ s.inFlightDisposal? d = some w := by
  simp only [inFlightDisposal?, getElem?_begun] at h ⊢
  cases hnode : s.scopes[d]? with
  | none => simp [hnode] at h
  | some node => grind

/-- The disposal that begins has everything below its root left. -/
theorem covered_begun (htree : Tree s) {root : Nat} (hroot : root < s.scopes.length) :
    Covered (s.begun root) { root, remaining := s.sortByDepth (s.collectSubtree root) } := by
  have hgrows := (Stepped.begun root hroot).grows
  have hlength := length_begun s root
  have hmem {d : Nat} : d ∈ s.sortByDepth (s.collectSubtree root) ↔ s.AtOrBelow root d :=
    mem_sortByDepth.trans (mem_collectSubtree htree hroot)
  refine ⟨hlength ▸ hroot, ?_, fun d hd => ?_, fun d hd => ?_, ?_⟩
  · rw [isActive_begun]
    simp [(mem_collectSubtree htree hroot).mpr .refl]
  · have hlt := hlength ▸ hd.lt (htree.begun hroot).ordered (hlength ▸ hroot)
    exact .inl ⟨rfl, hmem.mpr ((hgrows.atOrBelow_iff htree.ordered hlt).mp hd)⟩
  · have hbelow := hmem.mp hd
    exact ⟨hlength ▸ hbelow.lt htree.ordered hroot, hgrows.atOrBelow hbelow⟩
  · exact hgrows.deepestFirst (fun d hd => (hmem.mp hd).lt htree.ordered hroot) (deepestFirst_sortByDepth _)

theorem Disposals.begun (h : Disposals s) (htree : Tree s) {root : Nat} (hroot : root < s.scopes.length) :
    Disposals (s.begun root) := by
  have hstep : Stepped s (s.begun root) := .begun root hroot
  have hx := hstep.tree htree
  have hlength := length_begun s root
  have hnew (d : Nat) (hge : s.scopes.length ≤ d) (hd : d < (s.begun root).scopes.length) :
      (s.begun root).isActive d = true := by omega
  refine ⟨?_, ?_, fun b bulk w hb hdisposal => ?_, fun d hd hinactive => ?_, fun d w hd => ?_⟩
  · refine forall_concat (fun w u hw => (h.covered w u hw).grows htree hx hstep.grows hnew) ?_
    exact covered_begun htree hroot
  · intro w u b hw hawaiting
    rcases getElem?_concat_cases hw with hold | ⟨-, rfl⟩
    · exact h.awaits w u b hold hawaiting
    · cases hawaiting
  · exact (h.origin b bulk w hb hdisposal).grows h htree hx hstep hnew
  · rw [isActive_begun, Bool.and_eq_false_iff] at hinactive
    rcases hinactive with hbefore | hin
    · obtain ⟨w, u, hw, hbelow⟩ := h.inactive d (hlength ▸ hd) hbefore
      obtain ⟨u', hw', hroot', -⟩ := hstep.disposal w u hw
      exact ⟨w, u', hw', hroot' ▸ hstep.grows.atOrBelow hbelow⟩
    · have hin : d ∈ s.collectSubtree root := by simpa using hin
      exact ⟨_, _, List.getElem?_concat_length, hstep.grows.atOrBelow ((mem_collectSubtree htree hroot).mp hin)⟩
  · rcases inFlightDisposal?_begun hd with ⟨rfl, rfl⟩ | hold
    · exact ⟨_, List.getElem?_concat_length, rfl⟩
    · obtain ⟨u, hw, rfl⟩ := h.own d w hold
      obtain ⟨u', hw', hroot', -⟩ := hstep.disposal w u hw
      exact ⟨u', hw', hroot'⟩

/-! ## Steps -/

theorem inFlightDisposal?_createScope (s : ScopeTree) (parent : Option Nat) (depth d : Nat) :
    (s.createScope parent depth).inFlightDisposal? d = s.inFlightDisposal? d := by
  simp only [inFlightDisposal?, createScope, List.getElem?_append]
  grind

theorem Stepped.disposals (hstep : Stepped s x) (htree : Tree s) (hbulks : Bulks s) (h : Disposals s) :
    Disposals x := by
  have hgoes {w : Nat} {u' : ScopeUnwind} (hlength : x.disposals.length = s.disposals.length)
      (hw' : x.disposals[w]? = some u') : ∃ u, s.disposals[w]? = some u ∧ Goes s x u u' := by
    refine (hstep.goes h hbulks hw').resolve_right fun hlast => ?_
    have hlt := (List.getElem?_eq_some_iff.mp hw').1
    omega
  rcases hstep.quiet with ⟨parent, depth, rfl, hparent⟩ | ⟨root, hroot, rfl⟩ | hquiet
  · refine h.keep htree hstep (fun w u' hw' => hgoes rfl hw') (fun d hd => ?_) (fun d hge hd => ?_) fun d w hd => ?_
    · rw [isActive_createScope, if_neg hd.ne]
    · rw [createScope, List.length_append, List.length_singleton] at hd
      rw [isActive_createScope, if_pos (by omega)]
    · rwa [inFlightDisposal?_createScope] at hd
  · exact h.begun htree hroot
  · refine h.keep htree hstep (fun w u' hw' => hgoes hquiet.disposals hw') (fun d _ => hquiet.active d)
      (fun d hge hd => ?_) hquiet.own
    rw [hquiet.length] at hd
    omega

end ScopeTree

end MinionAgent.Rust
