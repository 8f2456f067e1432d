import MinionAgent.Library.BranchLog
import MinionAgent.Session.Codec

/-!
# MinionAgent.Session.Log

The append-only session log (`session/events.py`, `session/log.py`).

A log's events carry their sequence numbers, as in the source; `Gapless` says
that these count the events from 1, and `Sessions` keeps it of every log.
Logs refer to their ancestors by number: the logs of a deployment are a
`BranchLog.Forest`.
-/

namespace MinionAgent

open Py

/-! ## Event names -/

namespace EventKind

def userMessage : String := "user/message"
def assistantMessage : String := "assistant/message"
def toolResult : String := "tool/result"
def agentStart : String := "agent/start"
def agentEnd : String := "agent/end"
def turnStart : String := "turn/start"
def turnEnd : String := "turn/end"
def assistantStreamStart : String := "assistant/stream-start"
def assistantChunk : String := "assistant/chunk"
def toolCall : String := "tool/call"
def requestHeader : String := "request/header"
def sessionForked : String := "session/forked"
def sessionReset : String := "session/reset"
def compaction : String := "session/compaction"

/-- The core names that do not project into model history. -/
def logOnly : List String :=
  [agentStart, agentEnd, turnStart, turnEnd, assistantStreamStart, assistantChunk, toolCall, requestHeader,
    sessionForked, sessionReset, compaction]

end EventKind

def coreSurfaceKinds : List String := [EventKind.userMessage, EventKind.assistantMessage, EventKind.toolResult]

/-- Which event names project into model history: the core ones and those
plugins declare, which are none of the log-only core names. -/
structure SurfaceKinds where
  declared : List String := []
  notLogOnly : ∀ kind ∈ declared, kind ∉ EventKind.logOnly := by decide

/-- Only the core event names. -/
def SurfaceKinds.core : SurfaceKinds := {}

def SurfaceKinds.contains (kinds : SurfaceKinds) (kind : String) : Bool :=
  coreSurfaceKinds.contains kind || kinds.declared.contains kind

theorem SurfaceKinds.contains_logOnly (kinds : SurfaceKinds) {kind : String} (h : kind ∈ EventKind.logOnly) :
    kinds.contains kind = false := by
  have hcore : ∀ kind ∈ EventKind.logOnly, kind ∉ coreSurfaceKinds := by decide
  have hdeclared : kind ∉ kinds.declared := fun hmem => kinds.notLogOnly kind hmem h
  simp [SurfaceKinds.contains, hcore kind h, hdeclared]

def isAsciiLower (c : Char) : Bool := 'a' ≤ c && c ≤ 'z'
def isAsciiDigit (c : Char) : Bool := '0' ≤ c && c ≤ '9'

/-- The rest of a name inside a segment; later segments may hold dashes. -/
def matchesNameRest (dash : Bool) : List Char → Bool
  | [] => true
  | '/' :: c :: cs => isAsciiLower c && matchesNameRest true cs
  | c :: cs => (isAsciiLower c || isAsciiDigit c || c == '_' || (dash && c == '-')) && matchesNameRest dash cs

/-- `_NAME_PATTERN` without its `$`. -/
def matchesName : List Char → Bool
  | [] => false
  | c :: cs => isAsciiLower c && matchesNameRest false cs

/-- `_NAME_PATTERN.match`: `$` also matches before a final newline. -/
def isEventName (name : String) : Bool :=
  matchesName name.toList || (name.toList.getLast? == some '\n' && matchesName name.toList.dropLast)

/-! ## Events and their data -/

/-- What the session layer raises. -/
inductive SessionError
  | invalidEventName (name : String)
  | notJsonSafe (message : String)
  | invalidForkBoundary (boundary tip : Nat)
  | missingArtifact (ref : String)
  | noSuchLog (log : Nat)
deriving DecidableEq

def validateEventName (name : String) : Except SessionError String :=
  if isEventName name then .ok name else .error (.invalidEventName name)

mutual

/-- The text raised for a value JSON cannot represent, if it is one.  `keys`
is how the caller words a key that is not a string. -/
def jsonUnsafe? (keys : String) (path : String) : Value → Option String
  | .scalar _ => none
  | .list xs | .tuple xs => jsonUnsafeElem? keys path 0 xs
  | .dict items => jsonUnsafeItem? keys path items
  | .mixedDict items key =>
    (jsonUnsafeItem? keys path items).or (some (path ++ ": " ++ keys ++ " must be strings, got " ++ key))
  | .other typeName => some (path ++ ": " ++ typeName ++ " is not JSON-safe")

/-- The first unsafe element, from index `i` on. -/
def jsonUnsafeElem? (keys : String) (path : String) (i : Nat) : List Value → Option String
  | [] => none
  | x :: xs =>
    (jsonUnsafe? keys (path ++ "[" ++ toString i ++ "]") x).or (jsonUnsafeElem? keys path (i + 1) xs)

/-- The first unsafe item. -/
def jsonUnsafeItem? (keys : String) (path : String) : List (String × Value) → Option String
  | [] => none
  | (key, x) :: items => (jsonUnsafe? keys (path ++ "." ++ key) x).or (jsonUnsafeItem? keys path items)

end

/-- `_check_json_safe` of the log. -/
def checkJsonSafe (data : Dict) : Except SessionError Unit :=
  match jsonUnsafe? "object keys" "data" (.dict data) with
  | some message => .error (.notJsonSafe message)
  | none => .ok ()

/-- One appended event; `seq` is assigned by the log. -/
structure LogEvent (δ : Type) where
  seq : Nat
  kind : String
  data : δ
deriving DecidableEq

/-- An event of the Python log. -/
abbrev SessionEvent := LogEvent Dict

section

variable {δ : Type}

/-- Sequence numbers count the events from 1. -/
def Gapless (events : List (LogEvent δ)) : Prop :=
  ∀ i event, events[i]? = some event → event.seq = i + 1

theorem gapless_nil : Gapless ([] : List (LogEvent δ)) := by
  intro i event h
  simp at h

variable {events : List (LogEvent δ)}

theorem Gapless.concat (h : Gapless events) (kind : String) (data : δ) :
    Gapless (events ++ [{ seq := events.length + 1, kind, data }]) := by
  intro i event hevent
  rcases Nat.lt_trichotomy i events.length with hlt | heq | hgt
  · rw [List.getElem?_append_left hlt] at hevent
    exact h i event hevent
  · subst heq
    rw [List.getElem?_concat_length, Option.some.injEq] at hevent
    rw [← hevent]
  · rw [List.getElem?_eq_none (by simp; omega)] at hevent
    cases hevent

theorem Gapless.take (h : Gapless events) (k : Nat) : Gapless (events.take k) := by
  intro i event hevent
  rw [List.getElem?_take] at hevent
  split at hevent
  · exact h i event hevent
  · cases hevent

theorem Gapless.seq_pos (h : Gapless events) {event : LogEvent δ} (hevent : event ∈ events) : 0 < event.seq := by
  obtain ⟨i, hi⟩ := List.mem_iff_getElem?.mp hevent
  rw [h i event hi]
  omega

theorem Gapless.seq_le (h : Gapless events) {event : LogEvent δ} (hevent : event ∈ events) :
    event.seq ≤ events.length := by
  obtain ⟨i, hi⟩ := List.mem_iff_getElem?.mp hevent
  have hlt := (List.getElem?_eq_some_iff.mp hi).1
  rw [h i event hi]
  omega

/-- Cutting at a sequence number is cutting at a length. -/
theorem Gapless.filter_seq_le (h : Gapless events) (limit : Nat) :
    events.filter (fun event => event.seq ≤ limit) = events.take limit := by
  induction events using List.reverseRecOn with
  | nil => simp
  | append_singleton events event ih =>
    have hinit : Gapless events := by
      have := h.take events.length
      rwa [List.take_left] at this
    have hlast : event.seq = events.length + 1 := h events.length event (by simp)
    rw [List.filter_append, ih hinit]
    by_cases hle : events.length + 1 ≤ limit
    · have hlength : (events ++ [event]).length ≤ limit := by simpa using hle
      rw [List.take_of_length_le hlength, List.take_of_length_le (by omega)]
      simp [hlast, hle]
    · rw [List.take_append_of_le_length (by omega)]
      simp [hlast, hle]

/-- The sequence numbers of a log, in order. -/
theorem Gapless.map_seq (h : Gapless events) : events.map LogEvent.seq = List.range' 1 events.length := by
  apply List.ext_getElem?
  intro i
  rw [List.getElem?_map]
  by_cases hi : i < events.length
  · rw [List.getElem?_range' hi, List.getElem?_eq_getElem hi, Option.map_some,
      h i _ (List.getElem?_eq_getElem hi), Nat.add_comm]
    simp
  · rw [List.getElem?_eq_none (by omega), List.getElem?_eq_none (by simpa using hi), Option.map_none]

/-- Events are appended in the order of their sequence numbers. -/
theorem Gapless.pairwise_seq (h : Gapless events) :
    events.Pairwise fun e e' => e.seq < e'.seq := by
  rw [← List.pairwise_map (f := LogEvent.seq) (R := (· < ·)), h.map_seq]
  exact List.pairwise_lt_range'

/-- The most recent event of a kind. -/
def latestOf (events : List (LogEvent δ)) (kind : String) : Option (LogEvent δ) :=
  events.reverse.find? fun event => event.kind == kind

theorem latestOf_eq_none {kind : String} (h : ∀ event ∈ events, event.kind ≠ kind) : latestOf events kind = none := by
  rw [latestOf, List.find?_eq_none]
  intro event hevent
  simpa using h event (List.mem_reverse.mp hevent)

end

/-! ## Logs -/

/-- What a log is made with. -/
structure LogInfo where
  sessionId : String
  surfaceKinds : SurfaceKinds

/-- A log: its ancestor's number and boundary are its `parent`. -/
abbrev SessionLog := BranchLog.Node LogInfo SessionEvent

def isSurface (event : SessionEvent) (kinds : SurfaceKinds) : Bool := kinds.contains event.kind

/-- Only the events that project into model history. -/
def surface (log : SessionLog) : List SessionEvent :=
  log.events.filter fun event => isSurface event log.info.surfaceKinds

/-- The logs of a deployment. -/
structure Sessions where
  forest : BranchLog.Forest LogInfo SessionEvent
  gapless : ∀ log ∈ forest.nodes, Gapless log.events

namespace Sessions

/-- No logs yet. -/
def empty : Sessions where
  forest := ⟨[], by intro i node h; simp at h⟩
  gapless := by simp

/-- The log of a number. -/
def log? (s : Sessions) (log : Nat) : Option SessionLog := s.forest.nodes[log]?

theorem gapless_of_log? (s : Sessions) {log : Nat} {node : SessionLog} (h : s.log? log = some node) :
    Gapless node.events :=
  s.gapless node (List.mem_of_getElem? h)

/-- `SessionLog(session_id, surface_kinds=...)`, a root log. -/
def create (s : Sessions) (sessionId : String) (surfaceKinds : SurfaceKinds) : Sessions where
  forest := s.forest.root ⟨sessionId, surfaceKinds⟩
  gapless := by
    intro log hlog
    rcases List.mem_append.mp hlog with hold | hnew
    · exact s.gapless log hold
    · rw [List.mem_singleton.mp hnew]
      exact gapless_nil

/-- The log with the next event, numbered by the events before it. -/
def push (s : Sessions) (log : Nat) (kind : String) (data : Dict) : Sessions where
  forest := s.forest.append log
    { seq := ((s.log? log).elim 0 fun node => node.events.length) + 1, kind, data }
  gapless := by
    intro node hnode
    obtain ⟨i, hi⟩ := List.mem_iff_getElem?.mp hnode
    simp only [BranchLog.Forest.append, List.getElem?_modify] at hi
    obtain ⟨old, hold, rfl⟩ := Option.map_eq_some_iff.mp hi
    have hgapless := s.gapless old (List.mem_of_getElem? hold)
    by_cases hlog : log = i
    · subst hlog
      have hlog? : s.log? log = some old := hold
      simp only [if_true, BranchLog.Node.push, hlog?, Option.elim_some]
      exact hgapless.concat kind data
    · simpa [hlog] using hgapless

/-- Append one event.  Name and data are validated before anything is stored. -/
def append (s : Sessions) (log : Nat) (kind : String) (data : Dict) : Except SessionError Sessions := do
  if (s.log? log).isNone then
    throw (.noSuchLog log)
  let name ← validateEventName kind
  checkJsonSafe data
  return s.push log name data

/-- What an append stores, when it stores anything. -/
theorem append_eq_ok {s s' : Sessions} {log : Nat} {kind : String} {data : Dict}
    (h : s.append log kind data = .ok s') :
    (s.log? log).isSome ∧ isEventName kind = true ∧ checkJsonSafe data = .ok () ∧ s' = s.push log kind data := by
  unfold append at h
  cases hlog : s.log? log with
  | none => simp [hlog, bind, Except.bind, throw, throwThe, MonadExceptOf.throw] at h
  | some node =>
    unfold validateEventName at h
    cases hname : isEventName kind with
    | false => simp [hlog, hname, bind, Except.bind] at h
    | true =>
      cases hjson : checkJsonSafe data with
      | error e => simp [hlog, hname, hjson, bind, Except.bind] at h
      | ok u =>
        simp [hlog, hname, hjson, bind, Except.bind, pure, Except.pure] at h
        simp [h]

end Sessions

end MinionAgent
