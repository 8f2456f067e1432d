import MinionAgent.Session.Derive

/-!
# MinionAgent.Session.Amend

A logged value that goes on changing.

`append` copies an event's data no deeper than its keys (`session/log.py`), so
a list that its caller extends later is extended in the log too.

* `Sessions.amend` — an event's data, changed in place;
* `Sessions.derive_amend` — no model history shows it where the event is a
  log-only one;
* `Sessions.log?_step_of_grows`, `Sessions.inherited_step` — what operations on
  other logs leave as it is.
-/

namespace MinionAgent

open Py

namespace Sessions

/-- The data of the event with a sequence number, changed in place. -/
def amend (s : Sessions) (log seq : Nat) (data : Dict) : Sessions where
  forest := s.forest.amend log (seq - 1) fun event => { event with data }
  gapless := by
    intro node hnode
    obtain ⟨i, hi⟩ := List.mem_iff_getElem?.mp hnode
    simp only [BranchLog.Forest.amend, List.getElem?_modify] at hi
    obtain ⟨old, hold, rfl⟩ := Option.map_eq_some_iff.mp hi
    have hgapless := s.gapless old (List.mem_of_getElem? hold)
    split
    · intro j event hevent
      simp only [BranchLog.Node.amend, List.getElem?_modify] at hevent
      obtain ⟨before, hbefore, rfl⟩ := Option.map_eq_some_iff.mp hevent
      have hseq := hgapless j before hbefore
      split <;> exact hseq
    · exact hgapless

theorem log?_amend (s : Sessions) {log : Nat} {node : SessionLog} (hnode : s.log? log = some node) (seq : Nat)
    (data : Dict) :
    (s.amend log seq data).log? log = some (node.amend (seq - 1) fun event => { event with data }) := by
  rw [log?] at hnode
  simp [log?, amend, BranchLog.Forest.amend, hnode]

end Sessions

/-! ## What a derivation reads -/

theorem filter_modify {α : Type} {p : α → Bool} {g : α → α} {xs : List α} {k : Nat}
    (h : ∀ x, xs[k]? = some x → p x = false ∧ p (g x) = false) : (xs.modify k g).filter p = xs.filter p := by
  induction xs generalizing k with
  | nil => simp
  | cons x xs ih =>
    cases k with
    | zero =>
      obtain ⟨hx, hg⟩ := h x rfl
      simp [hx, hg]
    | succ k =>
      rw [List.modify_succ_cons, List.filter_cons, List.filter_cons, ih fun x hx => h x hx]

theorem latestOf_eq_getLast? {δ : Type} (events : List (LogEvent δ)) (kind : String) :
    latestOf events kind = (events.filter fun event => event.kind == kind).getLast? := by
  rw [latestOf, ← List.head?_filter, List.filter_reverse, List.head?_reverse]

/-- A derivation reads no log-only event other than resets and compactions. -/
theorem deriveFrom_amend {kinds : SurfaceKinds} {events : List SessionEvent} {k : Nat} {data : Dict}
    (h : ∀ event, events[k]? = some event →
      event.kind ∈ EventKind.logOnly ∧ event.kind ≠ EventKind.sessionReset ∧ event.kind ≠ EventKind.compaction)
    (inherited : Option (List Message)) :
    deriveFrom kinds (events.modify k fun event => { event with data }) inherited =
      deriveFrom kinds events inherited := by
  have hlatest : ∀ kind, (∀ event, events[k]? = some event → event.kind ≠ kind) →
      latestOf (events.modify k fun event => { event with data }) kind = latestOf events kind := by
    intro kind hkind
    rw [latestOf_eq_getLast?, latestOf_eq_getLast?, filter_modify]
    intro event hevent
    simpa using hkind event hevent
  have hreset := hlatest EventKind.sessionReset fun event hevent => (h event hevent).2.1
  have hcompaction := hlatest EventKind.compaction fun event hevent => (h event hevent).2.2
  have hfloor : resetFloor (events.modify k fun event => { event with data }) = resetFloor events := by
    rw [resetFloor, resetFloor, hreset]
  have hsurface : ∀ floor : Nat, ((events.modify k fun event => { event with data }).filter fun event =>
      isSurface event kinds && decide (floor < event.seq)) =
      events.filter fun event => isSurface event kinds && decide (floor < event.seq) := by
    intro floor
    refine filter_modify fun event hevent => ?_
    have hkind := kinds.contains_logOnly (h event hevent).1
    simp [isSurface, hkind]
  simp only [deriveFrom, hreset, hcompaction, hfloor, hsurface]

/-- What an event that is no surface one carries shows in no derivation. -/
theorem Sessions.derive_amend (s : Sessions) {log seq : Nat} {data : Dict}
    (h : ∀ node, s.log? log = some node → ∀ event, node.events[seq - 1]? = some event →
      event.kind ∈ EventKind.logOnly ∧ event.kind ≠ EventKind.sessionReset ∧ event.kind ≠ EventKind.compaction)
    (other limit : Nat) : (s.amend log seq data).derive other limit = s.derive other limit := by
  rw [derive_eq_view, derive_eq_view]
  refine BranchLog.view_amend s.forest log (seq - 1) _ (fun node hnode limit inherited => ?_) other limit
  have htake : ((node.events.modify (seq - 1) fun event => { event with data }).take limit) =
      (node.events.take limit).modify (seq - 1) fun event => { event with data } := by
    apply List.ext_getElem?
    intro i
    simp only [List.getElem?_take, List.getElem?_modify]
    split <;> rfl
  rw [htake]
  refine deriveFrom_amend (fun event hevent => ?_) inherited
  rw [List.getElem?_take] at hevent
  split at hevent
  · exact h node hnode event hevent
  · cases hevent

/-! ## Other logs -/

/-- The log that an operation adds to. -/
def Operation.grows : Operation → Option Nat
  | .append log _ _ | .reset log | .compact log _ _ => some log
  | .create _ _ | .fork _ _ _ => none

namespace Sessions

/-- An operation that adds to another log, or to none, leaves a log as it is. -/
theorem log?_step_of_grows (s : Sessions) {log : Nat} {node : SessionLog} (hnode : s.log? log = some node)
    {operation : Operation} (h : operation.grows ≠ some log) : (s.step operation).log? log = some node := by
  have hlt : log < s.forest.nodes.length := (List.getElem?_eq_some_iff.mp hnode).1
  rw [step]
  cases happly : s.apply operation with
  | error e => exact hnode
  | ok s' =>
    cases operation with
    | fork source sessionId «at» =>
      obtain ⟨node', boundary, hnode', hb, -, hforest⟩ := fork_cases happly
      change s'.log? log = some node
      rw [log?, hforest, BranchLog.getElem?_append_of_ne _ (by omega)]
      exact (List.getElem?_append_left hlt).trans hnode
    | create sessionId surfaceKinds | append other kind data | reset other | compact other summary keep =>
      exact ((apply_cases happly).2 log h hlt).trans hnode

/-- What was derived up to a limit stays. -/
theorem derive_step (s : Sessions) {log : Nat} {node : SessionLog} (hnode : s.log? log = some node) {limit : Nat}
    (hlimit : limit ≤ node.events.length) (operation : Operation) :
    (s.step operation).derive log limit = s.derive log limit := by
  rw [derive_eq_view, derive_eq_view]
  exact BranchLog.view_of_extends (s.extends_step operation) hnode hlimit

/-- What a log inherits stays. -/
theorem inherited_step (s : Sessions) {log : Nat} {node : SessionLog} (hnode : s.log? log = some node)
    (operation : Operation) :
    ∀ ancestor boundary, node.parent = some (ancestor, boundary) →
      (s.step operation).derive ancestor boundary = s.derive ancestor boundary := by
  intro ancestor boundary hparent
  obtain ⟨-, source, hsource, hboundary⟩ := s.forest.wellFormed log node hnode ancestor boundary hparent
  exact s.derive_step hsource hboundary operation

end Sessions

end MinionAgent
