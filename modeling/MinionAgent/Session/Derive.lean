import MinionAgent.Session.Log

/-!
# MinionAgent.Session.Derive

Projecting a log into model history (`session/derive.py`), and the session
operations, which are events that change the projection
(`session/operations.py`).

`derive` follows the source's recursion through the ancestry; `derive_eq_view`
connects it to `BranchLog.Forest.view`.  `Operation` and `run` are the
histories of a deployment's logs.
-/

namespace MinionAgent

open Py

/-! ## One log -/

/-- Decode surface events into messages. -/
def messagesFrom (events : List SessionEvent) : Option (List Message) :=
  events.mapM fun event => do decodeMessage (← event.data.lookup "message")

/-- The sequence number of the latest reset, 0 without one. -/
def resetFloor (events : List SessionEvent) : Nat :=
  (latestOf events EventKind.sessionReset).elim 0 LogEvent.seq

/-- The surface entries after the latest reset, ignoring compaction. -/
def effectiveSurface (log : SessionLog) : List SessionEvent :=
  (surface log).filter fun event => resetFloor log.events < event.seq

/-- The message that replaces what a compaction superseded. -/
def summaryMessage (text : String) : Message :=
  .user { content := .blocks [.text { text }], timestamp := 0 }

/-- What a compaction event says: the superseded range, the retained sequence
numbers and the summary. -/
def readCompaction (data : Dict) : Option (Int × List Int × String) := do
  let superseded ← (← data.lookup "superseded_through").int?
  let retained ← decodeEach Value.int? (← data.lookup "retained")
  let summary ← (← data.lookup "summary").str?
  return (superseded, retained, summary)

/-- The entries a compaction keeps. -/
def keptBy (superseded : Int) (retained : List Int) (events : List SessionEvent) : List SessionEvent :=
  events.filter fun event => superseded < (event.seq : Int) || retained.contains (event.seq : Int)

/-- `_derive` of one log, given its events up to the limit and what its
ancestor projects up to the boundary. -/
def deriveFrom (kinds : SurfaceKinds) (events : List SessionEvent) (inherited : Option (List Message)) :
    Option (List Message) := do
  let resetEvent := latestOf events EventKind.sessionReset
  let floor := resetFloor events
  let ownSurface := events.filter fun event => isSurface event kinds && floor < event.seq
  match (latestOf events EventKind.compaction).filter fun event => floor < event.seq with
  | some compaction =>
    let (superseded, retained, summary) ← readCompaction compaction.data
    let kept ← messagesFrom (keptBy superseded retained ownSurface)
    return summaryMessage summary :: kept
  | none =>
    let inherited ← if resetEvent.isNone then inherited else some []
    let own ← messagesFrom ownSurface
    return inherited ++ own

/-! ## Along the ancestry -/

namespace Sessions

/-- `_derive(log, limit)`, with fuel for the ancestry. -/
def deriveFuel (s : Sessions) : Nat → Nat → Nat → Option (List Message)
  | 0, _, _ => some []
  | fuel + 1, log, limit =>
    match s.log? log with
    | none => some []
    | some node =>
      deriveFrom node.info.surfaceKinds (node.events.filter fun event => event.seq ≤ limit)
        (match node.parent with
        | none => some []
        | some (ancestor, boundary) => deriveFuel s fuel ancestor boundary)

/-- Ancestors are older, so there are at most `log` of them. -/
def derive (s : Sessions) (log limit : Nat) : Option (List Message) := s.deriveFuel (log + 1) log limit

/-- The number of events of a log. -/
def length (s : Sessions) (log : Nat) : Nat := (s.log? log).elim 0 fun node => node.events.length

def deriveMessages (s : Sessions) (log : Nat) : Option (List Message) := s.derive log (s.length log)

/-- One log's part of a derivation. -/
def readLog (info : LogInfo) (events : List SessionEvent) (inherited : Option (List Message)) :
    Option (List Message) :=
  deriveFrom info.surfaceKinds events inherited

/-- A derivation is a view along the ancestry. -/
theorem derive_eq_view (s : Sessions) (log limit : Nat) :
    s.derive log limit = s.forest.view readLog (some []) log limit := by
  have hfuel : ∀ fuel log limit,
      s.deriveFuel fuel log limit = BranchLog.viewFuel readLog (some []) s.forest.nodes fuel log limit := by
    intro fuel
    induction fuel with
    | zero => intro log limit; rfl
    | succ fuel ih =>
      intro log limit
      rw [deriveFuel, BranchLog.viewFuel]
      cases hnode : s.log? log with
      | none =>
        rw [log?] at hnode
        rw [hnode]
      | some node =>
        have hgapless := s.gapless_of_log? hnode
        rw [log?] at hnode
        rw [hnode]
        simp only [hgapless.filter_seq_le, readLog]
        cases node.parent with
        | none => rfl
        | some parent => simp only [ih]
  exact hfuel (log + 1) log limit

/-! ## Operations -/

/-- `reset(log)`. -/
def reset (s : Sessions) (log : Nat) : Except SessionError Sessions := s.append log EventKind.sessionReset []

/-- What `compact` records: the superseded range and the retained tail, by
sequence number. -/
def compactData (log : SessionLog) (summary : String) (keep : Nat) : Dict :=
  let surface := effectiveSurface log
  let retained := if keep = 0 then [] else sliceFrom surface ((surface.length : Int) - keep)
  [("summary", .str summary),
    ("superseded_through", .int ((surface.getLast?).elim 0 fun event => (event.seq : Int))),
    ("retained", .list (retained.map fun event => .int event.seq))]

/-- `compact(log, summary, keep)`. -/
def compact (s : Sessions) (log : Nat) (summary : String) (keep : Nat) : Except SessionError Sessions :=
  match s.log? log with
  | none => .error (.noSuchLog log)
  | some node => s.append log EventKind.compaction (compactData node summary keep)

/-- A new log at a boundary its source has reached. -/
def branch (s : Sessions) (source : Nat) (node : SessionLog) (boundary : Nat) (sessionId : String)
    (h : s.log? source = some node) (hboundary : boundary ≤ node.events.length) : Sessions where
  forest := s.forest.branch ⟨sessionId, node.info.surfaceKinds⟩ source boundary [] ⟨node, h, hboundary⟩
  gapless := by
    intro log hlog
    rcases List.mem_append.mp hlog with hold | hnew
    · exact s.gapless log hold
    · rw [List.mem_singleton.mp hnew]
      exact gapless_nil

/-- `fork(source, session_id, at)`, for `at` from 0 on: the child is the last
log of the result. -/
def fork (s : Sessions) (source : Nat) (sessionId : String) («at» : Option Nat) : Except SessionError Sessions :=
  match h : s.log? source with
  | none => .error (.noSuchLog source)
  | some node =>
    let tip := node.events.length
    let boundary := «at».getD tip
    if hboundary : boundary ≤ tip then
      (s.branch source node boundary sessionId h hboundary).append s.forest.nodes.length EventKind.sessionForked
        [("source", .str node.info.sessionId), ("boundary", .int boundary)]
    else
      .error (.invalidForkBoundary boundary tip)

end Sessions

/-! ## Histories -/

/-- What can be done to the logs of a deployment. -/
inductive Operation
  | create (sessionId : String) (surfaceKinds : SurfaceKinds)
  | append (log : Nat) (kind : String) (data : Dict)
  | reset (log : Nat)
  | compact (log : Nat) (summary : String) (keep : Nat)
  | fork (log : Nat) (sessionId : String) («at» : Option Nat)

/-- The log an operation is applied to. -/
def Operation.target : Operation → Option Nat
  | .create _ _ => none
  | .append log _ _ | .reset log | .compact log _ _ | .fork log _ _ => some log

namespace Sessions

def apply (s : Sessions) : Operation → Except SessionError Sessions
  | .create sessionId surfaceKinds => .ok (s.create sessionId surfaceKinds)
  | .append log kind data => s.append log kind data
  | .reset log => s.reset log
  | .compact log summary keep => s.compact log summary keep
  | .fork log sessionId «at» => s.fork log sessionId «at»

/-- A rejected operation leaves no trace. -/
def step (s : Sessions) (operation : Operation) : Sessions :=
  match s.apply operation with
  | .ok s' => s'
  | .error _ => s

/-- A history of operations, from no logs on. -/
def run (operations : List Operation) : Sessions := operations.foldl step empty

/-! ## What an operation can do -/

theorem push_forest (s : Sessions) (log : Nat) (kind : String) (data : Dict) :
    (s.push log kind data).forest = s.forest.append log { seq := s.length log + 1, kind, data } := rfl

/-- An append adds one event to its log. -/
theorem append_cases {s s' : Sessions} {log : Nat} {kind : String} {data : Dict}
    (h : s.append log kind data = .ok s') :
    s'.forest = s.forest.append log { seq := s.length log + 1, kind, data } := by
  rw [(append_eq_ok h).2.2.2, push_forest]

/-- A fork adds one log, which starts with the fork event. -/
theorem fork_cases {s s' : Sessions} {source : Nat} {sessionId : String} {«at» : Option Nat}
    (h : s.fork source sessionId «at» = .ok s') :
    ∃ (node : SessionLog) (boundary : Nat) (hnode : s.log? source = some node) (hb : boundary ≤ node.events.length),
      boundary = «at».getD node.events.length ∧
      s'.forest = (s.branch source node boundary sessionId hnode hb).forest.append s.forest.nodes.length
        { seq := 1, kind := EventKind.sessionForked,
          data := [("source", .str node.info.sessionId), ("boundary", .int boundary)] } := by
  unfold fork at h
  split at h
  · cases h
  · next node hnode =>
    dsimp only at h
    split at h
    · next hb =>
      refine ⟨node, _, hnode, hb, rfl, ?_⟩
      rw [append_cases h]
      congr 2
      simp [length, log?, branch, BranchLog.Forest.branch]
    · cases h

/-- An operation grows the forest, and grows no log but its target. -/
theorem apply_cases {s s' : Sessions} {operation : Operation} (h : s.apply operation = .ok s') :
    BranchLog.Extends s.forest s'.forest ∧
      ∀ log, operation.target ≠ some log → log < s.forest.nodes.length → s'.log? log = s.log? log := by
  have happend : ∀ {log : Nat} {kind : String} {data : Dict}, s.append log kind data = .ok s' →
      BranchLog.Extends s.forest s'.forest ∧
        ∀ other, some log ≠ some other → other < s.forest.nodes.length → s'.log? other = s.log? other := by
    intro log kind data h
    rw [append_cases h]
    refine ⟨BranchLog.extends_append _ _ _, fun other hne _ => ?_⟩
    rw [log?, append_cases h]
    exact BranchLog.getElem?_append_of_ne _ (fun heq => hne (congrArg some heq)) _
  cases operation with
  | create sessionId surfaceKinds =>
    cases h
    exact ⟨BranchLog.extends_root _ _, fun log _ hlog => List.getElem?_append_left hlog⟩
  | append log kind data => exact happend h
  | reset log => exact happend h
  | compact log summary keep =>
    simp only [apply, compact] at h
    cases hnode : s.log? log with
    | none => simp [hnode] at h
    | some node =>
      rw [hnode] at h
      exact happend h
  | fork source sessionId «at» =>
    obtain ⟨node, boundary, hnode, hb, -, hforest⟩ := fork_cases h
    have hbranch := BranchLog.extends_branch s.forest ⟨sessionId, node.info.surfaceKinds⟩ source boundary []
      ⟨node, hnode, hb⟩
    rw [hforest]
    refine ⟨hbranch.trans (BranchLog.extends_append _ _ _), fun log _ hlog => ?_⟩
    rw [log?, hforest, BranchLog.getElem?_append_of_ne _ (by omega)]
    exact List.getElem?_append_left hlog

theorem extends_step (s : Sessions) (operation : Operation) : BranchLog.Extends s.forest (s.step operation).forest := by
  unfold step
  cases h : s.apply operation with
  | ok s' => exact (apply_cases h).1
  | error e => exact BranchLog.Extends.refl _

theorem extends_foldl (s : Sessions) (operations : List Operation) :
    BranchLog.Extends s.forest (operations.foldl step s).forest := by
  induction operations generalizing s with
  | nil => exact BranchLog.Extends.refl _
  | cons operation operations ih => exact (extends_step s operation).trans (ih _)

end Sessions

end MinionAgent
