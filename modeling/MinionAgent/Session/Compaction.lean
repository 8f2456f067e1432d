import MinionAgent.Session.Derive

/-!
# MinionAgent.Session.Compaction

What compaction projects.

`compact` retains a tail of the effective surface by sequence number, and the
derivation selects the retained entries again.  `keptBy_compactData` is that
round trip: whatever the history, exactly the slice `compact` took is kept.
The slice is the last `keep` entries for `keep ≤ n`, but its start is negative
for `keep > n` and then counts from the end (`retainedCount`).

* `projectedEntries` — the entries of its own surface a log projects, with its
  three growth lemmas;
* `compact_keeps_tail_iff` — when one compaction keeps the tail it promises.
-/

namespace MinionAgent

open Py

/-! ## The entries a log projects -/

/-- The surface entries a derivation projects of the log itself. -/
def projectedEntries (log : SessionLog) : List SessionEvent :=
  match (latestOf log.events EventKind.compaction).filter fun event => resetFloor log.events < event.seq with
  | none => effectiveSurface log
  | some compaction =>
    match readCompaction compaction.data with
    | none => []
    | some (superseded, retained, _) => keptBy superseded retained (effectiveSurface log)

/-- The entries after the reset among all events. -/
theorem effectiveSurface_eq (log : SessionLog) :
    effectiveSurface log =
      log.events.filter fun event => isSurface event log.info.surfaceKinds && resetFloor log.events < event.seq := by
  rw [effectiveSurface, surface, List.filter_filter]
  refine List.filter_congr fun event _ => ?_
  rw [Bool.and_comm]

/-- Under a readable compaction a log derives its summary and what it keeps. -/
theorem deriveFrom_of_compaction {log : SessionLog} {compaction : SessionEvent} {superseded : Int}
    {retained : List Int} {summary : String} (inherited : Option (List Message))
    (hcompaction : latestOf log.events EventKind.compaction = some compaction)
    (hfloor : resetFloor log.events < compaction.seq)
    (hread : readCompaction compaction.data = some (superseded, retained, summary)) :
    deriveFrom log.info.surfaceKinds log.events inherited =
      (messagesFrom (projectedEntries log)).map (summaryMessage summary :: ·) := by
  simp only [deriveFrom, ← effectiveSurface_eq, projectedEntries, hcompaction, Option.filter_some, hfloor,
    decide_true, if_true, hread, Option.bind_eq_bind, Option.bind_some]
  cases messagesFrom (keptBy superseded retained (effectiveSurface log)) <;> rfl

/-! ## Growing a log by one event -/

/-- A log with the next event. -/
def pushed (log : SessionLog) (kind : String) (data : Dict) : SessionLog :=
  log.push { seq := log.events.length + 1, kind, data }

theorem Sessions.log?_push (s : Sessions) {log : Nat} {node : SessionLog} (hnode : s.log? log = some node)
    (kind : String) (data : Dict) : (s.push log kind data).log? log = some (pushed node kind data) := by
  have hnodes : s.forest.nodes[log]? = some node := hnode
  simp [push, log?, BranchLog.Forest.append, hnodes, pushed]

theorem latestOf_pushed (log : SessionLog) (kind : String) (data : Dict) (other : String) :
    latestOf (pushed log kind data).events other =
      if kind = other then some { seq := log.events.length + 1, kind, data } else latestOf log.events other := by
  simp only [latestOf, pushed, BranchLog.Node.push, List.reverse_append, List.reverse_cons, List.reverse_nil,
    List.nil_append, List.singleton_append, List.find?_cons]
  by_cases h : kind = other
  · simp [h]
  · rw [beq_false_of_ne h, if_neg h]

/-- Only a reset moves the floor. -/
theorem resetFloor_pushed (log : SessionLog) {kind : String} (data : Dict) (h : kind ≠ EventKind.sessionReset) :
    resetFloor (pushed log kind data).events = resetFloor log.events := by
  rw [resetFloor, latestOf_pushed, if_neg h, resetFloor]

theorem resetFloor_le {events : List SessionEvent} (h : Gapless events) : resetFloor events ≤ events.length := by
  rw [resetFloor]
  cases hlatest : latestOf events EventKind.sessionReset with
  | none => exact Nat.zero_le _
  | some event => exact h.seq_le (List.mem_reverse.mp (List.mem_of_find?_eq_some hlatest))

theorem effectiveSurface_pushed {log : SessionLog} (hgapless : Gapless log.events) (kind : String) (data : Dict)
    (h : kind ≠ EventKind.sessionReset) :
    effectiveSurface (pushed log kind data) =
      effectiveSurface log ++
        if log.info.surfaceKinds.contains kind then [{ seq := log.events.length + 1, kind, data }] else [] := by
  have hfloor := resetFloor_le hgapless
  rw [effectiveSurface_eq, effectiveSurface_eq, resetFloor_pushed log data h]
  simp only [pushed, BranchLog.Node.push, List.filter_append]
  congr 1
  by_cases hsurface : log.info.surfaceKinds.contains kind = true
  · simp [isSurface, hsurface, Nat.lt_succ_of_le hfloor]
  · simp [isSurface, hsurface]

theorem effectiveSurface_pairwise {log : SessionLog} (hgapless : Gapless log.events) :
    (effectiveSurface log).Pairwise fun e e' => e.seq < e'.seq :=
  (hgapless.pairwise_seq.filter _).filter _

/-! ## One compaction -/

/-- How many of `n` entries a compaction with `keep` retains: a slice that
starts before the list counts its start from the end. -/
def retainedCount (n keep : Nat) : Nat :=
  if keep ≤ n then keep else if 2 * n ≤ keep then n else keep - n

theorem retainedCount_le (n keep : Nat) : retainedCount n keep ≤ n := by
  unfold retainedCount
  split_ifs <;> omega

/-- The slice `compact` retains is a tail of the surface. -/
theorem retained_eq_drop {α : Type} (xs : List α) (keep : Nat) :
    (if keep = 0 then [] else sliceFrom xs ((xs.length : Int) - keep)) =
      xs.drop (xs.length - retainedCount xs.length keep) := by
  by_cases hzero : keep = 0
  · simp [hzero, retainedCount]
  · rw [if_neg hzero, sliceFrom]
    by_cases hnegative : (xs.length : Int) - keep < 0
    · rw [if_pos hnegative]
      congr 1
      unfold retainedCount
      split_ifs <;> omega
    · rw [if_neg hnegative]
      congr 1
      unfold retainedCount
      split_ifs <;> omega

/-- The tail of the surface a compaction retains. -/
def retainedTail (log : SessionLog) (keep : Nat) : List SessionEvent :=
  (effectiveSurface log).drop ((effectiveSurface log).length - retainedCount (effectiveSurface log).length keep)

/-- The sequence number of a surface's last entry, 0 without one. -/
def supersededThrough (surface : List SessionEvent) : Int := surface.getLast?.elim 0 fun event => (event.seq : Int)

theorem compactData_eq (log : SessionLog) (summary : String) (keep : Nat) :
    Sessions.compactData log summary keep =
      [("summary", .str summary), ("superseded_through", .int (supersededThrough (effectiveSurface log))),
        ("retained", .list (((retainedTail log keep).map fun event => (event.seq : Int)).map .int))] := by
  simp only [Sessions.compactData, retained_eq_drop, List.map_map]
  rfl

/-- What `compact` records is read back. -/
theorem readCompaction_compactData (log : SessionLog) (summary : String) (keep : Nat) :
    readCompaction (Sessions.compactData log summary keep) =
      some (supersededThrough (effectiveSurface log),
        (retainedTail log keep).map (fun event => (event.seq : Int)), summary) := by
  have hretained := @decodeEach_map _ Value.int? Value.int (fun _ => rfl)
    ((retainedTail log keep).map fun event => (event.seq : Int))
  rw [compactData_eq, readCompaction]
  simp [List.lookup_cons, hretained, -List.map_map]

/-- `compact` records integers and a text. -/
theorem checkJsonSafe_compactData (log : SessionLog) (summary : String) (keep : Nat) :
    checkJsonSafe (Sessions.compactData log summary keep) = .ok () := by
  have hints : ∀ (seqs : List Int) (path : String) (i : Nat),
      jsonUnsafeElem? "object keys" path i (seqs.map Value.int) = none := by
    intro seqs
    induction seqs with
    | nil => intro path i; rfl
    | cons seq seqs ih => intro path i; simp [jsonUnsafeElem?, jsonUnsafe?, ih]
  rw [compactData_eq, checkJsonSafe]
  simp [jsonUnsafe?, jsonUnsafeItem?, hints, -List.map_map]

/-- `compact` always succeeds on a log that exists. -/
theorem Sessions.compact_eq_ok (s : Sessions) {log : Nat} {node : SessionLog} (hnode : s.log? log = some node)
    (summary : String) (keep : Nat) :
    s.compact log summary keep = .ok (s.push log EventKind.compaction (compactData node summary keep)) := by
  have hname : validateEventName EventKind.compaction = .ok EventKind.compaction := by decide
  simp [compact, append, hnode, hname, checkJsonSafe_compactData, bind, Except.bind, pure, Except.pure]

/-! ## The entries a compaction keeps -/

/-- A tail is selected by the keys of its elements. -/
theorem filter_mem_drop {α : Type} (f : α → Nat) {xs : List α} (h : xs.Pairwise fun x y => f x < f y) (k : Nat) :
    xs.filter (fun x => decide (f x ∈ (xs.drop k).map f)) = xs.drop k := by
  have hlast : (xs.drop k).filter (fun x => decide (f x ∈ (xs.drop k).map f)) = xs.drop k := by
    rw [List.filter_eq_self]
    intro x hx
    exact decide_eq_true (List.mem_map.mpr ⟨x, hx, rfl⟩)
  have hfirst : (xs.take k).filter (fun x => decide (f x ∈ (xs.drop k).map f)) = [] := by
    rw [List.filter_eq_nil_iff]
    intro x hx hmem
    obtain ⟨y, hy, heq⟩ := List.mem_map.mp (of_decide_eq_true hmem)
    rw [← List.take_append_drop k xs] at h
    have hlt := (List.pairwise_append.mp h).2.2 x hx y hy
    omega
  calc
    xs.filter (fun x => decide (f x ∈ (xs.drop k).map f)) =
        (xs.take k ++ xs.drop k).filter (fun x => decide (f x ∈ (xs.drop k).map f)) := by
      rw [List.take_append_drop]
    _ = xs.drop k := by rw [List.filter_append, hfirst, hlast, List.nil_append]

/-- No entry of a surface comes after its last one. -/
theorem seq_le_supersededThrough {surface : List SessionEvent} (h : surface.Pairwise fun e e' => e.seq < e'.seq)
    {event : SessionEvent} (hevent : event ∈ surface) : (event.seq : Int) ≤ supersededThrough surface := by
  rcases List.eq_nil_or_concat surface with rfl | ⟨init, last, rfl⟩
  · simp at hevent
  · rw [List.concat_eq_append] at h hevent ⊢
    rw [supersededThrough, List.getLast?_concat, Option.elim_some]
    rcases List.mem_append.mp hevent with hinit | hlast
    · have hlt := (List.pairwise_append.mp h).2.2 event hinit last (by simp)
      omega
    · rw [List.mem_singleton.mp hlast]

/-- What `compact` recorded selects exactly the entries it retained. -/
theorem keptBy_compactData {surface : List SessionEvent} (h : surface.Pairwise fun e e' => e.seq < e'.seq) (k : Nat) :
    keptBy (supersededThrough surface) ((surface.drop k).map fun event => (event.seq : Int)) surface =
      surface.drop k := by
  have hfilter : keptBy (supersededThrough surface) ((surface.drop k).map fun event => (event.seq : Int)) surface =
      surface.filter fun event => decide (event.seq ∈ (surface.drop k).map LogEvent.seq) := by
    refine List.filter_congr fun event hevent => ?_
    have hle := seq_le_supersededThrough h hevent
    rw [decide_eq_false (by omega), Bool.false_or, Bool.eq_iff_iff, List.contains_iff_mem, decide_eq_true_iff,
      List.mem_map, List.mem_map]
    simp only [Int.ofNat_inj]
  rw [hfilter, filter_mem_drop LogEvent.seq h k]

/-- A compacted log projects the tail the compaction retained. -/
theorem projectedEntries_compacted {log : SessionLog} (hgapless : Gapless log.events) (summary : String)
    (keep : Nat) :
    projectedEntries (pushed log EventKind.compaction (Sessions.compactData log summary keep)) =
      retainedTail log keep := by
  have hfloor := resetFloor_le hgapless
  have hsurface := effectiveSurface_pushed hgapless EventKind.compaction
    (Sessions.compactData log summary keep) (by decide)
  rw [log.info.surfaceKinds.contains_logOnly (by decide), if_neg Bool.false_ne_true, List.append_nil] at hsurface
  rw [projectedEntries, latestOf_pushed, if_pos rfl, resetFloor_pushed log _ (by decide), Option.filter_some,
    if_pos (decide_eq_true (Nat.lt_succ_of_le hfloor)), hsurface]
  simp only [readCompaction_compactData]
  exact keptBy_compactData (effectiveSurface_pairwise hgapless) _

/-- Right after a compaction a log derives the summary and the retained tail. -/
theorem Sessions.deriveMessages_compacted (s : Sessions) {log : Nat} {node : SessionLog}
    (hnode : s.log? log = some node) (summary : String) (keep : Nat) :
    (s.push log EventKind.compaction (compactData node summary keep)).deriveMessages log =
      (messagesFrom (retainedTail node keep)).map (summaryMessage summary :: ·) := by
  have hgapless := s.gapless_of_log? hnode
  have hpushed := s.log?_push hnode EventKind.compaction (compactData node summary keep)
  have hfloor := resetFloor_le hgapless
  have hlatest := (latestOf_pushed node EventKind.compaction (compactData node summary keep)
    EventKind.compaction).trans (if_pos rfl)
  have hactive : resetFloor (pushed node EventKind.compaction (compactData node summary keep)).events <
      node.events.length + 1 := by
    rw [resetFloor_pushed node _ (by decide)]
    exact Nat.lt_succ_of_le hfloor
  rw [deriveMessages, derive_eq_view, length, hpushed, Option.elim_some, BranchLog.view_eq _ hpushed,
    List.take_length, readLog, deriveFrom_of_compaction _ hlatest hactive
      (readCompaction_compactData node summary keep), projectedEntries_compacted hgapless]

/-! ## When the promised tail is kept -/

theorem messagesFrom_length {events : List SessionEvent} {messages : List Message}
    (h : messagesFrom events = some messages) : messages.length = events.length := by
  induction events generalizing messages with
  | nil =>
    cases h
    rfl
  | cons event events ih =>
    rw [messagesFrom, List.mapM_cons] at h
    obtain ⟨message, -, h⟩ := Option.bind_eq_some_iff.mp h
    obtain ⟨rest, hrest, h⟩ := Option.bind_eq_some_iff.mp h
    cases h
    simp [ih hrest]

theorem messagesFrom_drop {events : List SessionEvent} {messages : List Message}
    (h : messagesFrom events = some messages) (k : Nat) :
    messagesFrom (events.drop k) = some (messages.drop k) := by
  induction events generalizing messages k with
  | nil =>
    cases h
    simp [messagesFrom]
  | cons event events ih =>
    cases k with
    | zero => exact h
    | succ k =>
      rw [messagesFrom, List.mapM_cons] at h
      obtain ⟨message, -, h⟩ := Option.bind_eq_some_iff.mp h
      obtain ⟨rest, hrest, h⟩ := Option.bind_eq_some_iff.mp h
      cases h
      exact ih hrest k

/-- A compaction succeeds, and the log then derives the summary and the last
`min keep n` of its `n` surface messages, exactly unless `keep` lies strictly
between `n` and `2 * n`: there the slice starts too late. -/
theorem compact_keeps_tail_iff (s : Sessions) (log : Nat) (node : SessionLog) (hnode : s.log? log = some node)
    (messages : List Message) (hmessages : messagesFrom (effectiveSurface node) = some messages)
    (summary : String) (keep : Nat) :
    ∃ s', s.compact log summary keep = .ok s' ∧
      (s'.deriveMessages log =
          some (summaryMessage summary :: messages.drop (messages.length - min keep messages.length)) ↔
        keep ≤ (effectiveSurface node).length ∨ 2 * (effectiveSurface node).length ≤ keep) := by
  have hlength := messagesFrom_length hmessages
  refine ⟨_, s.compact_eq_ok hnode summary keep, ?_⟩
  rw [s.deriveMessages_compacted hnode, retainedTail, messagesFrom_drop hmessages, Option.map_some,
    Option.some.injEq, List.cons.injEq, and_iff_right rfl, hlength]
  constructor
  · intro h
    have hcount := congrArg List.length h
    rw [List.length_drop, List.length_drop, hlength] at hcount
    unfold retainedCount at hcount
    split_ifs at hcount <;> omega
  · intro h
    congr 1
    unfold retainedCount
    split_ifs <;> omega

/-- A log of three user messages. -/
def threeMessages : List Operation :=
  [.create "s" .core,
    .append 0 EventKind.userMessage [("message", encodeMessage (.user { content := .text "one", timestamp := 1 }))],
    .append 0 EventKind.userMessage [("message", encodeMessage (.user { content := .text "two", timestamp := 2 }))],
    .append 0 EventKind.userMessage [("message", encodeMessage (.user { content := .text "three", timestamp := 3 }))]]

theorem log?_threeMessages : ∃ node, (Sessions.run threeMessages).log? 0 = some node ∧
    messagesFrom (effectiveSurface node) =
      some [.user { content := .text "one", timestamp := 1 }, .user { content := .text "two", timestamp := 2 },
        .user { content := .text "three", timestamp := 3 }] := by
  have hsome : ((Sessions.run threeMessages).log? 0).isSome = true := by decide
  have hdecoded : ∀ node ∈ (Sessions.run threeMessages).log? 0, messagesFrom (effectiveSurface node) =
      some [.user { content := .text "one", timestamp := 1 }, .user { content := .text "two", timestamp := 2 },
        .user { content := .text "three", timestamp := 3 }] := by decide
  obtain ⟨node, hnode⟩ := Option.isSome_iff_exists.mp hsome
  exact ⟨node, hnode, hdecoded node hnode⟩

/-- With `keep` 2 the last two of three messages are retained. -/
theorem compact_keeps_tail_two :
    ∃ node messages s', (Sessions.run threeMessages).log? 0 = some node ∧
      messagesFrom (effectiveSurface node) = some messages ∧
      (Sessions.run threeMessages).compact 0 "summary" 2 = .ok s' ∧
      s'.deriveMessages 0 = some (summaryMessage "summary" :: messages.drop 1) := by
  obtain ⟨node, hnode, hdecoded⟩ := log?_threeMessages
  have hcount := messagesFrom_length hdecoded
  obtain ⟨s', hok, hiff⟩ := compact_keeps_tail_iff _ 0 node hnode _ hdecoded "summary" 2
  exact ⟨node, _, s', hnode, hdecoded, hok, hiff.mpr (.inl (by rw [← hcount]; decide))⟩

/-- With `keep` 4 only the last of three messages is retained. -/
theorem compact_drops_tail :
    ¬ ∀ (s : Sessions) (log : Nat) (node : SessionLog), s.log? log = some node →
      ∀ messages, messagesFrom (effectiveSurface node) = some messages → ∀ summary keep, ∃ s',
        s.compact log summary keep = .ok s' ∧
          s'.deriveMessages log =
            some (summaryMessage summary :: messages.drop (messages.length - min keep messages.length)) := by
  intro h
  obtain ⟨node, hnode, hdecoded⟩ := log?_threeMessages
  obtain ⟨s', hok, hderived⟩ := h _ 0 node hnode _ hdecoded "summary" 4
  have hstep : (Sessions.run threeMessages).step (.compact 0 "summary" 4) = s' := by
    simp [Sessions.step, Sessions.apply, hok]
  rw [← hstep] at hderived
  revert hderived
  decide

end MinionAgent
