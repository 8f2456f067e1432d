import MinionAgent.Session.Derive

/-!
# MinionAgent.Session.RustSession

The Rust session (`session/mod.rs`): typed messages next to JSON data in the
log, and `derive_until` along the ancestry.

`fromValue` is `serde_json::from_value` at the message type, generated by the
derive macros; it is a parameter.  A log is a `Vec`, whose length stays far
below `u64::MAX`; a log that could not grow is an error here, where the
process would end.
-/

namespace MinionAgent.Rust

open Py

/-! ## Events -/

/-- JSON metadata, or a typed live message. -/
inductive SessionField
  | json (value : Value)
  | message (message : Message)

def SessionField.asJson : SessionField → Option Value
  | .json value => some value
  | .message _ => none

/-- An event of the Rust log. -/
abbrev SessionEvent := LogEvent (List (String × SessionField))

inductive SessionError
  | invalidEventKind
  | invalidEventData
  | message (text : String)
  | invalidForkBoundary (boundary tip : Nat)
  | noSuchSession (session : Nat)
  | capacity

/-- `EventKind::new`. -/
def eventKindNew (value : String) : Except SessionError String :=
  let valid := (value.toList.splitOn '/').zipIdx.all fun (part, index) =>
    match part with
    | [] => false
    | c :: cs =>
      isAsciiLower c && cs.all fun c => isAsciiLower c || isAsciiDigit c || c == '_' || (decide (index > 0) && c == '-')
  if valid then .ok value else .error .invalidEventKind

/-- What a session is made with. -/
structure SessionInfo where
  id : String
  surface : List String

/-- `SessionInner`: its ancestor's number and boundary are its `parent`. -/
abbrev SessionInner := BranchLog.Node SessionInfo SessionEvent

def u64Max : Nat := 2 ^ 64 - 1

/-- The live sessions. -/
structure Sessions where
  forest : BranchLog.Forest SessionInfo SessionEvent
  gapless : ∀ session ∈ forest.nodes, Gapless session.events
  bounded : ∀ session ∈ forest.nodes, session.events.length ≤ u64Max

namespace Sessions

def empty : Sessions where
  forest := ⟨[], by intro i node h; simp at h⟩
  gapless := by simp
  bounded := by simp

def session? (s : Sessions) (session : Nat) : Option SessionInner := s.forest.nodes[session]?

/-- A new session on top of the others. -/
private def add (s : Sessions) (forest : BranchLog.Forest SessionInfo SessionEvent) (node : SessionInner)
    (hforest : forest.nodes = s.forest.nodes ++ [node]) (hevents : node.events = []) : Sessions where
  forest
  gapless := by
    rw [hforest]
    intro session hsession
    rcases List.mem_append.mp hsession with hold | hnew
    · exact s.gapless session hold
    · rw [List.mem_singleton.mp hnew, hevents]
      exact gapless_nil
  bounded := by
    rw [hforest]
    intro session hsession
    rcases List.mem_append.mp hsession with hold | hnew
    · exact s.bounded session hold
    · rw [List.mem_singleton.mp hnew, hevents]
      exact Nat.zero_le _

/-- `Session::new(id, extra_surface)`. -/
def create (s : Sessions) (id : String) (extraSurface : List String) : Except SessionError Sessions := do
  let extra ← extraSurface.mapM eventKindNew
  return s.add (s.forest.root ⟨id, coreSurfaceKinds ++ extra⟩) _ rfl rfl

/-- `append_fields_locked`. -/
def appendFieldsLocked (s : Sessions) (session : Nat) (kind : String) (data : List (String × SessionField)) :
    Except SessionError Sessions :=
  match h : s.session? session with
  | none => .error (.noSuchSession session)
  | some node =>
    if hcapacity : node.events.length < u64Max then
      .ok {
        forest := s.forest.append session { seq := node.events.length + 1, kind, data }
        gapless := by
          intro other hother
          obtain ⟨i, hi⟩ := List.mem_iff_getElem?.mp hother
          simp only [BranchLog.Forest.append, List.getElem?_modify] at hi
          obtain ⟨old, hold, rfl⟩ := Option.map_eq_some_iff.mp hi
          have hgapless := s.gapless old (List.mem_of_getElem? hold)
          by_cases hsession : session = i
          · subst hsession
            obtain rfl : node = old := Option.some.inj (h.symm.trans hold)
            simpa only [if_true, BranchLog.Node.push] using hgapless.concat kind data
          · simpa [hsession] using hgapless
        bounded := by
          intro other hother
          obtain ⟨i, hi⟩ := List.mem_iff_getElem?.mp hother
          simp only [BranchLog.Forest.append, List.getElem?_modify] at hi
          obtain ⟨old, hold, rfl⟩ := Option.map_eq_some_iff.mp hi
          have hbounded := s.bounded old (List.mem_of_getElem? hold)
          by_cases hsession : session = i
          · subst hsession
            obtain rfl : node = old := Option.some.inj (h.symm.trans hold)
            simp only [if_true, BranchLog.Node.push, List.length_append, List.length_singleton]
            omega
          · simpa [hsession] using hbounded }
    else
      .error .capacity

/-- `append_raw(kind, data)`. -/
def appendRaw (s : Sessions) (session : Nat) (kind : String) (data : Value) : Except SessionError Sessions := do
  let kind ← eventKindNew kind
  match data with
  | .dict items => s.appendFieldsLocked session kind (items.map fun (key, value) => (key, .json value))
  | _ => throw .invalidEventData

/-- `append_projectable(kind, message)`, of an `EventKind` that was made. -/
def appendProjectable (s : Sessions) (session : Nat) (kind : String) (message : Message) :
    Except SessionError Sessions := do
  let kind ← eventKindNew kind
  s.appendFieldsLocked session kind [("message", .message message)]

def reset (s : Sessions) (session : Nat) : Except SessionError Sessions :=
  s.appendRaw session EventKind.sessionReset (.dict [])

/-- `compact(summary, keep)`. -/
def compact (s : Sessions) (session : Nat) (summary : String) (keep : Nat) : Except SessionError Sessions :=
  match s.session? session with
  | none => .error (.noSuchSession session)
  | some node =>
    let floor := (latestOf node.events EventKind.sessionReset).elim 0 LogEvent.seq
    let surface := node.events.filter fun event => decide (event.seq > floor) && node.info.surface.contains event.kind
    let retained := (surface.reverse.take keep).map LogEvent.seq
    let through := surface.getLast?.elim 0 LogEvent.seq
    s.appendFieldsLocked session EventKind.compaction
      [("summary", .json (.str summary)), ("superseded_through", .json (.int through)),
        ("retained", .json (.list (retained.reverse.map fun seq => .int seq)))]

/-- `fork(id, at)`: the child is the last session of the result. -/
def fork (s : Sessions) (session : Nat) (id : String) («at» : Option Nat) : Except SessionError Sessions :=
  match h : s.session? session with
  | none => .error (.noSuchSession session)
  | some node =>
    let tip := node.events.length
    let boundary := «at».getD tip
    if hboundary : boundary ≤ tip then
      (s.add (s.forest.branch ⟨id, node.info.surface⟩ session boundary [] ⟨node, h, hboundary⟩) _ rfl rfl).appendRaw
        s.forest.nodes.length EventKind.sessionForked
        (.dict [("source", .str node.info.id), ("boundary", .int boundary)])
    else
      .error (.invalidForkBoundary boundary tip)

end Sessions

/-! ## Derivation -/

/-- `Value::as_u64`. -/
def asU64 : Value → Option Nat
  | .int i => if 0 ≤ i ∧ i ≤ u64Max then some i.toNat else none
  | _ => none

/-- `data.get(key).and_then(SessionField::as_json)`. -/
def jsonField (data : List (String × SessionField)) (key : String) : Option Value := do
  (← data.lookup key).asJson

def orInvalid {α : Type} : Option α → Except SessionError α
  | some a => .ok a
  | none => .error .invalidEventData

section

variable (fromValue : Value → Except String Message)

/-- One event's message: typed, or decoded from JSON. -/
def decodeEvent (event : SessionEvent) : Except SessionError Message := do
  match ← orInvalid (event.data.lookup "message") with
  | .message message => return message
  | .json value =>
    match fromValue value with
    | .ok message => return message
    | .error text => throw (.message text)

def decodeEvents (events : List SessionEvent) : Except SessionError (List Message) :=
  events.mapM (decodeEvent fromValue)

/-- `derive_until` of one session, given what its ancestor derives. -/
def deriveUntilFrom (surface : List String) (events : List SessionEvent) (limit : Nat)
    (inherited : Except SessionError (List Message)) : Except SessionError (List Message) := do
  let reset := events.reverse.find? fun e => decide (e.seq ≤ limit) && e.kind == EventKind.sessionReset
  let floor := reset.elim 0 LogEvent.seq
  let own := events.filter fun e => decide (e.seq ≤ limit) && decide (e.seq > floor) && surface.contains e.kind
  match events.reverse.find? fun e =>
      decide (e.seq ≤ limit) && decide (e.seq > floor) && e.kind == EventKind.compaction with
  | some compaction =>
    let through ← orInvalid (do asU64 (← jsonField compaction.data "superseded_through"))
    let retained ← orInvalid (do ((← (← jsonField compaction.data "retained").elems?).mapM asU64))
    let summary ← orInvalid (do (← jsonField compaction.data "summary").str?)
    let kept ← decodeEvents fromValue (own.filter fun e => decide (e.seq > through) || retained.contains e.seq)
    return .user { content := .text summary, timestamp := 0 } :: kept
  | none =>
    let result ← if reset.isNone then inherited else .ok []
    let decoded ← decodeEvents fromValue own
    return result ++ decoded

namespace Sessions

/-- `derive_until(limit)`, with fuel for the ancestry. -/
def deriveUntilFuel (s : Sessions) : Nat → Nat → Nat → Except SessionError (List Message)
  | 0, _, _ => .ok []
  | fuel + 1, session, limit =>
    match s.session? session with
    | none => .ok []
    | some node =>
      deriveUntilFrom fromValue node.info.surface node.events limit
        (match node.parent with
        | none => .ok []
        | some (ancestor, boundary) => deriveUntilFuel s fuel ancestor boundary)

def deriveUntil (s : Sessions) (session limit : Nat) : Except SessionError (List Message) :=
  s.deriveUntilFuel fromValue (session + 1) session limit

def deriveMessages (s : Sessions) (session : Nat) : Except SessionError (List Message) :=
  s.deriveUntil fromValue session u64Max

/-- One session's part of a derivation. -/
def readSession (info : SessionInfo) (events : List SessionEvent) (inherited : Except SessionError (List Message)) :
    Except SessionError (List Message) :=
  deriveUntilFrom fromValue info.surface events events.length inherited

private theorem filter_limit {events : List SessionEvent} (h : Gapless events) (limit : Nat) (p : SessionEvent → Bool) :
    events.filter (fun e => decide (e.seq ≤ limit) && p e) = (events.take limit).filter p := by
  rw [← h.filter_seq_le, List.filter_filter]
  simp only [Bool.and_comm]

private theorem find?_limit {events : List SessionEvent} (h : Gapless events) (limit : Nat) (p : SessionEvent → Bool) :
    events.reverse.find? (fun e => decide (e.seq ≤ limit) && p e) = (events.take limit).reverse.find? p := by
  rw [← List.head?_filter, ← List.head?_filter, List.filter_reverse, List.filter_reverse, filter_limit h]

/-- A limit only cuts the events. -/
theorem deriveUntilFrom_eq (surface : List String) {events : List SessionEvent} (h : Gapless events) (limit : Nat)
    (inherited : Except SessionError (List Message)) :
    deriveUntilFrom fromValue surface events limit inherited =
      deriveUntilFrom fromValue surface (events.take limit) (events.take limit).length inherited := by
  have htake : (events.take limit).take (events.take limit).length = events.take limit := List.take_length
  simp only [deriveUntilFrom, Bool.and_assoc, filter_limit h, find?_limit h, filter_limit (h.take limit),
    find?_limit (h.take limit), htake]

/-- A derivation is a view along the ancestry. -/
theorem deriveUntil_eq_view (s : Sessions) (session limit : Nat) :
    s.deriveUntil fromValue session limit = s.forest.view (readSession fromValue) (.ok []) session limit := by
  have hfuel : ∀ fuel session limit,
      s.deriveUntilFuel fromValue fuel session limit =
        BranchLog.viewFuel (readSession fromValue) (.ok []) s.forest.nodes fuel session limit := by
    intro fuel
    induction fuel with
    | zero => intro session limit; rfl
    | succ fuel ih =>
      intro session limit
      rw [deriveUntilFuel, BranchLog.viewFuel]
      cases hnode : s.session? session with
      | none =>
        rw [session?] at hnode
        rw [hnode]
      | some node =>
        rw [session?] at hnode
        have hgapless := s.gapless node (List.mem_of_getElem? hnode)
        rw [hnode]
        simp only [readSession]
        rw [deriveUntilFrom_eq fromValue node.info.surface hgapless limit]
        cases node.parent with
        | none => rfl
        | some parent => simp only [ih]
  exact hfuel (session + 1) session limit

/-- The whole session is its view up to its last event. -/
theorem deriveMessages_eq_view (s : Sessions) {session : Nat} {node : SessionInner}
    (hnode : s.session? session = some node) :
    s.deriveMessages fromValue session =
      s.forest.view (readSession fromValue) (.ok []) session node.events.length := by
  have hbounded := s.bounded node (List.mem_of_getElem? hnode)
  rw [deriveMessages, deriveUntil_eq_view, BranchLog.view_eq _ hnode, BranchLog.view_eq _ hnode,
    List.take_of_length_le hbounded, List.take_length]

end Sessions

end

/-! ## Histories -/

/-- What can be done to the sessions. -/
inductive Operation
  | create (id : String) (extraSurface : List String)
  | appendRaw (session : Nat) (kind : String) (data : Value)
  | appendProjectable (session : Nat) (kind : String) (message : Message)
  | reset (session : Nat)
  | compact (session : Nat) (summary : String) (keep : Nat)
  | fork (session : Nat) (id : String) («at» : Option Nat)

/-- The session an operation is called on. -/
def Operation.target : Operation → Option Nat
  | .create _ _ => none
  | .appendRaw session _ _ | .appendProjectable session _ _ | .reset session | .compact session _ _
  | .fork session _ _ => some session

namespace Sessions

def apply (s : Sessions) : Operation → Except SessionError Sessions
  | .create id extraSurface => s.create id extraSurface
  | .appendRaw session kind data => s.appendRaw session kind data
  | .appendProjectable session kind message => s.appendProjectable session kind message
  | .reset session => s.reset session
  | .compact session summary keep => s.compact session summary keep
  | .fork session id «at» => s.fork session id «at»

/-- A call that returns an error leaves the sessions as they are. -/
def step (s : Sessions) (operation : Operation) : Sessions :=
  match s.apply operation with
  | .ok s' => s'
  | .error _ => s

/-- A history of calls, from no sessions on. -/
def run (operations : List Operation) : Sessions := operations.foldl step empty

/-! ## What a call can do -/

theorem appendFieldsLocked_cases {s s' : Sessions} {session : Nat} {kind : String}
    {data : List (String × SessionField)} (h : s.appendFieldsLocked session kind data = .ok s') :
    ∃ e, s'.forest = s.forest.append session e := by
  unfold appendFieldsLocked at h
  split at h
  · cases h
  · split at h
    · cases h
      exact ⟨_, rfl⟩
    · cases h

theorem appendRaw_cases {s s' : Sessions} {session : Nat} {kind : String} {data : Value}
    (h : s.appendRaw session kind data = .ok s') : ∃ e, s'.forest = s.forest.append session e := by
  unfold appendRaw at h
  cases hkind : eventKindNew kind with
  | error e => simp [hkind, bind, Except.bind] at h
  | ok kind =>
    cases data with
    | dict items =>
      simp only [hkind, bind, Except.bind] at h
      exact appendFieldsLocked_cases h
    | _ => simp [hkind, bind, Except.bind, throw, throwThe, MonadExceptOf.throw] at h

/-- A call grows the forest, and grows no session but its own. -/
theorem apply_cases {s s' : Sessions} {operation : Operation} (h : s.apply operation = .ok s') :
    BranchLog.Extends s.forest s'.forest ∧
      ∀ session, operation.target ≠ some session → session < s.forest.nodes.length →
        s'.session? session = s.session? session := by
  have happend : ∀ {session : Nat}, (∃ e, s'.forest = s.forest.append session e) →
      BranchLog.Extends s.forest s'.forest ∧
        ∀ other, some session ≠ some other → other < s.forest.nodes.length → s'.session? other = s.session? other := by
    rintro session ⟨e, he⟩
    rw [he]
    refine ⟨BranchLog.extends_append _ _ _, fun other hne _ => ?_⟩
    rw [session?, he]
    exact BranchLog.getElem?_append_of_ne _ (fun heq => hne (congrArg some heq)) _
  cases operation with
  | create id extraSurface =>
    simp only [apply, create] at h
    cases hextra : extraSurface.mapM eventKindNew with
    | error e => simp [hextra, bind, Except.bind] at h
    | ok extra =>
      simp only [hextra, bind, Except.bind, pure, Except.pure] at h
      cases h
      exact ⟨BranchLog.extends_root _ _, fun session _ hsession => List.getElem?_append_left hsession⟩
  | appendRaw session kind data => exact happend (appendRaw_cases h)
  | appendProjectable session kind message =>
    simp only [apply, appendProjectable] at h
    cases hkind : eventKindNew kind with
    | error e => simp [hkind, bind, Except.bind] at h
    | ok kind =>
      simp only [hkind, bind, Except.bind] at h
      exact happend (appendFieldsLocked_cases h)
  | reset session =>
    simp only [apply, reset] at h
    exact happend (appendRaw_cases h)
  | compact session summary keep =>
    simp only [apply, compact] at h
    cases hnode : s.session? session with
    | none => simp [hnode] at h
    | some node =>
      rw [hnode] at h
      exact happend (appendFieldsLocked_cases h)
  | fork session id «at» =>
    simp only [apply, fork] at h
    split at h
    · cases h
    · next node hnode =>
      split at h
      · next hb =>
        obtain ⟨e, he⟩ := appendRaw_cases h
        have hbranch := BranchLog.extends_branch s.forest ⟨id, node.info.surface⟩ session (at.getD node.events.length)
          [] ⟨node, hnode, hb⟩
        rw [he]
        refine ⟨hbranch.trans (BranchLog.extends_append _ _ _), fun other _ hother => ?_⟩
        rw [session?, he, BranchLog.getElem?_append_of_ne _ (by omega)]
        exact List.getElem?_append_left hother
      · cases h

theorem extends_step (s : Sessions) (operation : Operation) : BranchLog.Extends s.forest (s.step operation).forest := by
  unfold step
  cases h : s.apply operation with
  | ok s' => exact (apply_cases h).1
  | error e => exact BranchLog.Extends.refl _

theorem extends_foldl (s : Sessions) (operations : List Operation) :
    BranchLog.Extends s.forest (operations.foldl step s).forest := by
  induction operations generalizing s with
  | nil => exact BranchLog.Extends.refl _
  | cons operation operations ih => exact (extends_step s operation).trans (ih _)

end Sessions

end MinionAgent.Rust
