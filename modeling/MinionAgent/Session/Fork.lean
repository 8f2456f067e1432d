import MinionAgent.Session.RustSession

/-!
# MinionAgent.Session.Fork

Fork isolation, in both bindings.

A derivation is a view along the ancestry, and every operation only grows the
forest of logs.  So nothing done elsewhere changes what a log projects
(`BranchLog.view_of_extends`), and a fork without a reset or compaction of its
own projects what its parent did at the boundary, followed by its own surface.
-/

namespace MinionAgent

namespace Sessions

/-- The deployment as it was when log `i` held its first `k` events. -/
def upTo (s : Sessions) (i k : Nat) : Sessions where
  forest := s.forest.upTo i k
  gapless := by
    intro log hlog
    rcases List.mem_append.mp hlog with hold | hcut
    · exact s.gapless log (List.mem_of_mem_take hold)
    · obtain ⟨node, hnode, rfl⟩ := Option.map_eq_some_iff.mp (Option.mem_toList.mp hcut)
      exact (s.gapless node (List.mem_of_getElem? hnode)).take k

/-- A whole derivation is the view up to the log's last event. -/
theorem deriveMessages_eq_view (s : Sessions) {log : Nat} {node : SessionLog} (hnode : s.log? log = some node) :
    s.deriveMessages log = s.forest.view readLog (some []) log node.events.length := by
  rw [deriveMessages, derive_eq_view, length, hnode, Option.elim_some]

/-- A log that has not grown derives as before. -/
theorem deriveMessages_of_extends {s s' : Sessions} (h : BranchLog.Extends s.forest s'.forest) {log : Nat}
    {node : SessionLog} (hnode : s.log? log = some node) (hnode' : s'.log? log = some node) :
    s'.deriveMessages log = s.deriveMessages log := by
  rw [deriveMessages_eq_view s hnode, deriveMessages_eq_view s' hnode']
  exact BranchLog.view_of_extends h hnode (Nat.le_refl _)

end Sessions

/-- Without a reset or compaction a log adds its surface to what it inherits. -/
theorem deriveFrom_eq_append {kinds : SurfaceKinds} {events : List SessionEvent} (hgapless : Gapless events)
    (hplain : ∀ event ∈ events, event.kind ≠ EventKind.sessionReset ∧ event.kind ≠ EventKind.compaction)
    (inherited : Option (List Message)) :
    deriveFrom kinds events inherited =
      do return (← inherited) ++ (← messagesFrom (events.filter fun event => isSurface event kinds)) := by
  have hreset := latestOf_eq_none fun event hevent => (hplain event hevent).1
  have hcompaction := latestOf_eq_none fun event hevent => (hplain event hevent).2
  have hown : events.filter (fun event => isSurface event kinds && decide (resetFloor events < event.seq)) =
      events.filter fun event => isSurface event kinds := by
    refine List.filter_congr fun event hevent => ?_
    have hpos := hgapless.seq_pos hevent
    simp [resetFloor, hreset, hpos]
  simp only [deriveFrom, hreset, hcompaction, hown]
  rfl

namespace Sessions

/-- What isolation says of log `x` after a history. -/
structure Isolated (operations : List Operation) (x : Nat) (log : SessionLog) : Prop where
  /-- Operations on other logs do not change its derivation. -/
  others : ∀ operation : Operation, operation.target ≠ some x →
    ((run operations).step operation).deriveMessages x = (run operations).deriveMessages x
  /-- A fork without reset or compaction extends its parent, cut to the first
  `k` events. -/
  inherits : ∀ parent k, log.parent = some (parent, k) →
    (∀ event ∈ log.events, event.kind ≠ EventKind.sessionReset ∧ event.kind ≠ EventKind.compaction) →
    (run operations).deriveMessages x =
      do return (← ((run operations).upTo parent k).deriveMessages parent) ++ (← messagesFrom (surface log))
  /-- The cut parent derives what the parent did when it held those events. -/
  asItWas : ∀ parent k, log.parent = some (parent, k) →
    ∀ earlier later source, operations = earlier ++ later → (run earlier).log? parent = some source →
      source.events.length = k →
      (run earlier).deriveMessages parent = ((run operations).upTo parent k).deriveMessages parent

/-- Every log of every history is isolated. -/
theorem isolated_run (operations : List Operation) {x : Nat} {log : SessionLog}
    (hlog : (run operations).log? x = some log) : Isolated operations x log := by
  have hx : x < (run operations).forest.nodes.length := (List.getElem?_eq_some_iff.mp hlog).1
  refine ⟨fun operation htarget => ?_, fun parent k hparent hplain => ?_, ?_⟩
  · unfold step
    cases happly : (run operations).apply operation with
    | error e => rfl
    | ok s' =>
      obtain ⟨hextends, hothers⟩ := apply_cases happly
      exact deriveMessages_of_extends hextends hlog ((hothers x htarget hx).trans hlog)
  · obtain ⟨hlt, source, hsource, hk⟩ := (run operations).forest.wellFormed x log hlog parent k hparent
    have hcut := BranchLog.getElem?_upTo_self (run operations).forest hsource k
    have hlength : (source.events.take k).length = k := by simp [hk]
    rw [deriveMessages_eq_view _ hlog, BranchLog.view_eq _ hlog, hparent, List.take_length, readLog,
      deriveFrom_eq_append ((run operations).gapless_of_log? hlog) hplain,
      deriveMessages_eq_view ((run operations).upTo parent k) hcut]
    simp only [hlength]
    rw [BranchLog.view_of_extends (BranchLog.extends_upTo _ parent k) hcut (by simp [hk])]
    rfl
  · intro parent k hparent earlier later source hsplit hearlier hk
    obtain ⟨hlt, now, hnow, hb⟩ := (run operations).forest.wellFormed x log hlog parent k hparent
    have hcut := BranchLog.getElem?_upTo_self (run operations).forest hnow k
    have hgrown : BranchLog.Extends (run earlier).forest (run operations).forest := by
      rw [hsplit, run, run, List.foldl_append]
      exact extends_foldl _ later
    rw [deriveMessages_eq_view _ hearlier, deriveMessages_eq_view ((run operations).upTo parent k) hcut, hk]
    have hlength : (now.events.take k).length = k := by simp [hb]
    simp only [hlength]
    rw [← BranchLog.view_of_extends hgrown hearlier (Nat.le_of_eq hk.symm)]
    exact BranchLog.view_of_extends (BranchLog.extends_upTo _ parent k) hcut (by simp [hb])

end Sessions

namespace Rust.Sessions

variable (fromValue : Py.Value → Except String Message)

/-- The sessions as they were when session `i` held its first `k` events. -/
def upTo (s : Sessions) (i k : Nat) : Sessions where
  forest := s.forest.upTo i k
  gapless := by
    intro session hsession
    rcases List.mem_append.mp hsession with hold | hcut
    · exact s.gapless session (List.mem_of_mem_take hold)
    · obtain ⟨node, hnode, rfl⟩ := Option.map_eq_some_iff.mp (Option.mem_toList.mp hcut)
      exact (s.gapless node (List.mem_of_getElem? hnode)).take k
  bounded := by
    intro session hsession
    rcases List.mem_append.mp hsession with hold | hcut
    · exact s.bounded session (List.mem_of_mem_take hold)
    · obtain ⟨node, hnode, rfl⟩ := Option.map_eq_some_iff.mp (Option.mem_toList.mp hcut)
      exact (List.length_take_le' k node.events).trans (s.bounded node (List.mem_of_getElem? hnode))

/-- The events of a session that project into model history. -/
def surface (session : SessionInner) : List SessionEvent :=
  session.events.filter fun event => session.info.surface.contains event.kind

/-- Without a reset or compaction a session adds its surface to what it
inherits. -/
theorem deriveUntilFrom_eq_append {kinds : List String} {events : List SessionEvent} (hgapless : Gapless events)
    (hplain : ∀ event ∈ events, event.kind ≠ EventKind.sessionReset ∧ event.kind ≠ EventKind.compaction)
    (inherited : Except SessionError (List Message)) :
    deriveUntilFrom fromValue kinds events events.length inherited =
      do return (← inherited) ++ (← decodeEvents fromValue (events.filter fun event => kinds.contains event.kind)) := by
  have hreset : events.reverse.find? (fun e => decide (e.seq ≤ events.length) && e.kind == EventKind.sessionReset) =
      none := by
    rw [List.find?_eq_none]
    intro event hevent
    simp [(hplain event (List.mem_reverse.mp hevent)).1]
  have hcompaction : events.reverse.find? (fun e => decide (e.seq ≤ events.length) && decide (e.seq > 0) &&
      e.kind == EventKind.compaction) = none := by
    rw [List.find?_eq_none]
    intro event hevent
    simp [(hplain event (List.mem_reverse.mp hevent)).2]
  have hown : events.filter (fun e => decide (e.seq ≤ events.length) && decide (e.seq > 0) && kinds.contains e.kind) =
      events.filter fun event => kinds.contains event.kind := by
    refine List.filter_congr fun event hevent => ?_
    simp [hgapless.seq_le hevent, hgapless.seq_pos hevent]
  simp only [deriveUntilFrom, hreset, Option.elim_none, hcompaction, hown]
  rfl

/-- What isolation says of session `x` after a history. -/
structure Isolated (operations : List Operation) (x : Nat) (session : SessionInner) : Prop where
  others : ∀ operation : Operation, operation.target ≠ some x →
    ((run operations).step operation).deriveMessages fromValue x = (run operations).deriveMessages fromValue x
  inherits : ∀ parent k, session.parent = some (parent, k) →
    (∀ event ∈ session.events, event.kind ≠ EventKind.sessionReset ∧ event.kind ≠ EventKind.compaction) →
    (run operations).deriveMessages fromValue x =
      do return (← ((run operations).upTo parent k).deriveMessages fromValue parent) ++
        (← decodeEvents fromValue (surface session))
  asItWas : ∀ parent k, session.parent = some (parent, k) →
    ∀ earlier later source, operations = earlier ++ later → (run earlier).session? parent = some source →
      source.events.length = k →
      (run earlier).deriveMessages fromValue parent =
        ((run operations).upTo parent k).deriveMessages fromValue parent

/-- Every session of every history is isolated. -/
theorem isolated_run (operations : List Operation) {x : Nat} {session : SessionInner}
    (hsession : (run operations).session? x = some session) : Isolated fromValue operations x session := by
  have hx : x < (run operations).forest.nodes.length := (List.getElem?_eq_some_iff.mp hsession).1
  refine ⟨fun operation htarget => ?_, fun parent k hparent hplain => ?_, ?_⟩
  · unfold step
    cases happly : (run operations).apply operation with
    | error e => rfl
    | ok s' =>
      obtain ⟨hextends, hothers⟩ := apply_cases happly
      rw [deriveMessages_eq_view fromValue _ hsession,
        deriveMessages_eq_view fromValue _ ((hothers x htarget hx).trans hsession)]
      exact BranchLog.view_of_extends hextends hsession (Nat.le_refl _)
  · obtain ⟨hlt, source, hsource, hk⟩ := (run operations).forest.wellFormed x session hsession parent k hparent
    have hcut := BranchLog.getElem?_upTo_self (run operations).forest hsource k
    have hlength : (source.events.take k).length = k := by simp [hk]
    have hgapless := (run operations).gapless session (List.mem_of_getElem? hsession)
    rw [deriveMessages_eq_view fromValue _ hsession, BranchLog.view_eq _ hsession, hparent, List.take_length,
      readSession, deriveUntilFrom_eq_append fromValue hgapless hplain,
      deriveMessages_eq_view fromValue ((run operations).upTo parent k) hcut]
    simp only [hlength]
    rw [BranchLog.view_of_extends (BranchLog.extends_upTo _ parent k) hcut (by simp [hk])]
    rfl
  · intro parent k hparent earlier later source hsplit hearlier hk
    obtain ⟨hlt, now, hnow, hb⟩ := (run operations).forest.wellFormed x session hsession parent k hparent
    have hcut := BranchLog.getElem?_upTo_self (run operations).forest hnow k
    have hgrown : BranchLog.Extends (run earlier).forest (run operations).forest := by
      rw [hsplit, run, run, List.foldl_append]
      exact extends_foldl _ later
    rw [deriveMessages_eq_view fromValue _ hearlier,
      deriveMessages_eq_view fromValue ((run operations).upTo parent k) hcut, hk]
    have hlength : (now.events.take k).length = k := by simp [hb]
    simp only [hlength]
    rw [← BranchLog.view_of_extends hgrown hearlier (Nat.le_of_eq hk.symm)]
    exact BranchLog.view_of_extends (BranchLog.extends_upTo _ parent k) hcut (by simp [hb])

end Rust.Sessions

/-- Fork isolation: every log of every history of creations, appends, resets,
compactions and forks is isolated, in both bindings. -/
theorem forks_isolated :
    (∀ (operations : List Operation) (x : Nat), ∀ log ∈ (Sessions.run operations).log? x,
        Sessions.Isolated operations x log) ∧
      ∀ (fromValue : Py.Value → Except String Message) (operations : List Rust.Operation) (x : Nat),
        ∀ session ∈ (Rust.Sessions.run operations).session? x, Rust.Sessions.Isolated fromValue operations x session :=
  ⟨fun operations _ _ hlog => Sessions.isolated_run operations hlog,
    fun fromValue operations _ _ hsession => Rust.Sessions.isolated_run fromValue operations hsession⟩

end MinionAgent
