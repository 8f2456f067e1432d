import MinionAgent.AgentLoop.RunLog

/-!
# MinionAgent.AgentLoop.RunHistory

The model history that the log of a run derives to.

* `SupersedesPast` — a log's compaction supersedes nothing that is yet to come;
* `deriveFrom_written` — a run's entries add their messages to what a log
  derives to, one by one;
* `Journal.derive_take` — what the log of a run derives to, up to any entry.
-/

namespace MinionAgent

open Py

/-! ## One more event -/

/-- The compaction that governs a log supersedes nothing that is yet to come. -/
def SupersedesPast (log : SessionLog) : Prop :=
  ∀ compaction, latestOf log.events EventKind.compaction = some compaction →
    resetFloor log.events < compaction.seq → ∀ superseded retained summary,
    readCompaction compaction.data = some (superseded, retained, summary) → superseded ≤ (log.events.length : Int)

/-- The message of an event's data. -/
def readMessage (data : Dict) : Option Message := (data.lookup "message").bind decodeMessage

theorem messagesFrom_concat (events : List SessionEvent) (event : SessionEvent) :
    messagesFrom (events ++ [event]) =
      (messagesFrom events).bind fun messages => (readMessage event.data).map fun message => messages ++ [message] := by
  rw [messagesFrom, List.mapM_append]
  change (messagesFrom events).bind _ = _
  refine congrArg _ (funext fun messages => ?_)
  have hread : (event.data.lookup "message").bind decodeMessage = readMessage event.data := rfl
  simp only [List.mapM_cons, List.mapM_nil, Option.bind_eq_bind, hread]
  cases readMessage event.data <;> rfl

/-- A plain event adds its message, if it is a surface event, and else nothing. -/
theorem deriveFrom_pushed {log : SessionLog} (hgapless : Gapless log.events) (hpast : SupersedesPast log)
    {kind : String} (data : Dict) (hplain : kind ≠ EventKind.sessionReset ∧ kind ≠ EventKind.compaction)
    (inherited : Option (List Message)) :
    deriveFrom log.info.surfaceKinds (pushed log kind data).events inherited =
      (deriveFrom log.info.surfaceKinds log.events inherited).bind fun messages =>
        if log.info.surfaceKinds.contains kind then (readMessage data).map fun message => messages ++ [message]
        else some messages := by
  have hinfo : (pushed log kind data).info = log.info := rfl
  have hsurface := effectiveSurface_pushed hgapless kind data hplain.1
  rw [deriveFrom, deriveFrom, ← hinfo, ← effectiveSurface_eq, hinfo, ← effectiveSurface_eq, hsurface,
    latestOf_pushed, if_neg hplain.2, latestOf_pushed, if_neg hplain.1, resetFloor_pushed log data hplain.1]
  cases hcompaction : (latestOf log.events EventKind.compaction).filter
      fun event => decide (resetFloor log.events < event.seq) with
  | none =>
    simp only [Option.bind_eq_bind, Option.pure_def]
    by_cases hkind : log.info.surfaceKinds.contains kind = true
    · simp only [hkind, if_true, messagesFrom_concat]
      cases (latestOf log.events EventKind.sessionReset).isNone <;> cases inherited <;>
        cases messagesFrom (effectiveSurface log) <;> cases readMessage data <;> simp
    · simp [hkind]
  | some compaction =>
    obtain ⟨hlatest, hfloor⟩ := Option.filter_eq_some_iff.mp hcompaction
    simp only [Option.bind_eq_bind, Option.pure_def]
    cases hread : readCompaction compaction.data with
    | none => rfl
    | some read =>
      obtain ⟨superseded, retained, summary⟩ := read
      have hle := hpast compaction hlatest (of_decide_eq_true hfloor) superseded retained summary hread
      have hnew : decide (superseded < ((log.events.length + 1 : ℕ) : Int)) = true := by
        rw [decide_eq_true_iff]
        omega
      simp only [Option.bind_some, keptBy, List.filter_append]
      by_cases hkind : log.info.surfaceKinds.contains kind = true
      · simp only [hkind, if_true, List.filter_singleton, hnew, Bool.true_or, cond_true, messagesFrom_concat]
        generalize messagesFrom (List.filter _ (effectiveSurface log)) = kept
        cases kept <;> cases readMessage data <;> simp
      · simp [hkind]

theorem supersedesPast_pushed {log : SessionLog} (h : SupersedesPast log) {kind : String} (data : Dict)
    (hplain : kind ≠ EventKind.sessionReset ∧ kind ≠ EventKind.compaction) :
    SupersedesPast (pushed log kind data) := by
  intro compaction hlatest hfloor superseded retained summary hread
  rw [latestOf_pushed, if_neg hplain.2] at hlatest
  rw [resetFloor_pushed log data hplain.1] at hfloor
  have hle := h compaction hlatest hfloor superseded retained summary hread
  simp only [pushed, BranchLog.Node.push, List.length_append, List.length_singleton]
  omega

/-! ## The entries of a run -/

/-- The message that an entry adds to the model history. -/
def LoopEntry.surface? : LoopEntry → Option Message
  | .userMessage message => some message
  | .assistantMessage message => some (.assistant message)
  | .toolResult message _ _ _ => some (.toolResult message)
  | _ => none

theorem LoopEntry.plain (entry : LoopEntry) :
    entry.kind ≠ EventKind.sessionReset ∧ entry.kind ≠ EventKind.compaction := by
  cases entry <;> simp only [kind] <;> decide

/-- An entry with a message is a surface event, and any other is none. -/
theorem LoopEntry.contains_kind (entry : LoopEntry) (kinds : SurfaceKinds) :
    kinds.contains entry.kind = entry.surface?.isSome := by
  have hlogOnly : ∀ kind ∈ EventKind.logOnly, kinds.contains kind = false := fun kind => kinds.contains_logOnly
  cases entry with
  | userMessage | assistantMessage | toolResult => rfl
  | _ => exact hlogOnly _ (by simp only [kind]; decide)

/-- The message of an entry is read back. -/
theorem LoopEntry.readMessage_data {entry : LoopEntry} {message : Message} (h : entry.surface? = some message) :
    readMessage entry.data = some message := by
  cases entry with
  | userMessage message | assistantMessage message | toolResult message =>
    cases h
    simp [readMessage, data, decode_encode]
  | _ => cases h

/-- A log with a run's entries. -/
def SessionLog.with (node : SessionLog) (causes : List Value) (entries : List LoopEntry) : SessionLog :=
  { node with events := node.events ++ written causes node.events.length entries }

theorem SessionLog.with_concat (node : SessionLog) (causes : List Value) (entries : List LoopEntry)
    (entry : LoopEntry) :
    node.with causes (entries ++ [entry]) = pushed (node.with causes entries) entry.kind (entry.final causes).data := by
  simp [SessionLog.with, pushed, BranchLog.Node.push, written_concat, LoopEntry.event]

/-- A run's entries add their messages, one by one. -/
theorem deriveFrom_written {node : SessionLog} (hgapless : Gapless node.events) (hpast : SupersedesPast node)
    (causes : List Value) (entries : List LoopEntry) (inherited : Option (List Message)) :
    Gapless (node.with causes entries).events ∧ SupersedesPast (node.with causes entries) ∧
      deriveFrom node.info.surfaceKinds (node.with causes entries).events inherited =
        (deriveFrom node.info.surfaceKinds node.events inherited).map fun messages =>
          messages ++ entries.filterMap LoopEntry.surface? := by
  induction entries using List.reverseRecOn with
  | nil =>
    have hnone : node.with causes [] = node := by simp [SessionLog.with, written]
    rw [hnone]
    exact ⟨hgapless, hpast, by simp⟩
  | append_singleton entries entry ih =>
    obtain ⟨hgapless', hpast', hderive⟩ := ih
    have hsurface : (entry.final causes).surface? = entry.surface? := by cases entry <;> rfl
    rw [SessionLog.with_concat]
    refine ⟨hgapless'.concat _ _, supersedesPast_pushed hpast' _ entry.plain, ?_⟩
    have hpushed := deriveFrom_pushed hgapless' hpast' (entry.final causes).data entry.plain inherited
    have hinfo : (node.with causes entries).info = node.info := rfl
    rw [hinfo] at hpushed
    rw [hpushed, hderive, List.filterMap_append]
    cases hread : entry.surface? with
    | none =>
      have hcontains : node.info.surfaceKinds.contains entry.kind = false := by
        rw [entry.contains_kind, hread]
        rfl
      have hnone : [entry].filterMap LoopEntry.surface? = [] := by simp [hread]
      simp [hcontains, hnone]
    | some message =>
      have hcontains : node.info.surfaceKinds.contains entry.kind = true := by
        rw [entry.contains_kind, hread]
        rfl
      have hone : [entry].filterMap LoopEntry.surface? = [message] := by simp [hread]
      have hdata := LoopEntry.readMessage_data (hsurface.trans hread)
      simp only [hcontains, if_true, hdata, Option.map_some, hone]
      cases deriveFrom node.info.surfaceKinds node.events inherited <;> simp

/-- The log of a run, up to any of the run's entries. -/
theorem Journal.take_events {s₀ s : RunState} {node₀ : SessionLog} {actions : List LoopAction}
    (h : Journal s₀ node₀ actions s) :
    ∃ node, Spared s₀.agent.log node s₀.agent.sessions s.agent.sessions ∧ node.info = node₀.info ∧
      node.parent = node₀.parent ∧ ∀ entries, entries <+: logged actions →
        node.events.take (node₀.events.length + entries.length) = (node₀.with s.causes entries).events := by
  obtain ⟨node, hspared, hinfo, hparent, hevents⟩ := h.node
  refine ⟨node, hspared, hinfo, hparent, fun entries hentries => ?_⟩
  obtain ⟨rest, hrest⟩ := hentries
  rw [hevents, ← hrest, written_append, ← List.append_assoc]
  exact List.take_left' (by rw [List.length_append, length_written])

/-- What the log of a run derives to, up to any of the run's entries: what it
derived to before the run, and then the messages of the entries. -/
theorem Journal.derive_take {s₀ s : RunState} {node₀ : SessionLog} {actions : List LoopAction}
    (h : Journal s₀ node₀ actions s) (hnode₀ : s₀.agent.sessions.log? s₀.agent.log = some node₀)
    (hpast : SupersedesPast node₀) {entries : List LoopEntry} (hentries : entries <+: logged actions) :
    s.agent.sessions.derive s₀.agent.log (node₀.events.length + entries.length) =
      s₀.agent.messages.map fun messages => messages ++ entries.filterMap LoopEntry.surface? := by
  obtain ⟨node, ⟨hnode, hinherited⟩, hinfo, hparent, htake⟩ := h.take_events
  have hgapless := s₀.agent.sessions.gapless_of_log? hnode₀
  have hlength : s₀.agent.sessions.length s₀.agent.log = node₀.events.length := by
    rw [Sessions.length, hnode₀, Option.elim_some]
  rw [AgentInstance.messages, Sessions.deriveMessages, hlength, Sessions.derive_eq_view, Sessions.derive_eq_view,
    BranchLog.view_eq _ hnode, BranchLog.view_eq _ hnode₀, htake entries hentries, hinfo, hparent, List.take_length]
  cases hp : node₀.parent with
  | none => exact (deriveFrom_written hgapless hpast s.causes entries _).2.2
  | some parent =>
    obtain ⟨ancestor, boundary⟩ := parent
    have hsame := hinherited ancestor boundary (hparent.trans hp)
    rw [Sessions.derive_eq_view, Sessions.derive_eq_view] at hsame
    simp only [hsame]
    exact (deriveFrom_written hgapless hpast s.causes entries _).2.2

/-- The last entry of a kind is the latest event of that kind. -/
theorem latestOf_written {events : List SessionEvent} {entries : List LoopEntry} {entry : LoopEntry} {kind : String}
    (h : (entries.reverse.find? fun other => other.kind == kind) = some entry) (causes : List Value) (n : ℕ) :
    ∃ seq, latestOf (events ++ written causes n entries) kind = some (entry.event causes seq) := by
  induction entries using List.reverseRecOn with
  | nil => cases h
  | append_singleton entries last ih =>
    rw [List.reverse_append, List.reverse_singleton, List.singleton_append, List.find?_cons] at h
    rw [latestOf, written_concat, ← List.append_assoc, List.reverse_append, List.reverse_singleton,
      List.singleton_append, List.find?_cons]
    have hkind : (last.event causes (n + entries.length + 1)).kind = last.kind := rfl
    rw [hkind]
    cases hlast : last.kind == kind with
    | true =>
      rw [hlast] at h
      obtain rfl := Option.some.inj h
      exact ⟨_, rfl⟩
    | false =>
      rw [hlast] at h
      exact ih h

end MinionAgent
