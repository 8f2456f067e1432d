import MinionAgent.Session.Compaction

/-!
# MinionAgent.Session.Supersede

Repeated compaction of one log.

A log without resets projects the last entries of its surface, after a summary
once it has been compacted.  How many it projects depends on the operations
alone (`Tally`), so a history never brings a superseded entry back exactly when
each of its compactions retains no more entries than were projected before it
(`supersedes_iff_fits`).
-/

namespace MinionAgent

/-! ## Histories of one log -/

/-- What is done to one log: an append that is neither a reset nor a
compaction of its own making, or a compaction. -/
inductive LogOperation
  | append (kind : String) (data : Dict) (plain : kind ≠ EventKind.sessionReset ∧ kind ≠ EventKind.compaction)
  | compact (summary : String) (keep : Nat)

def LogOperation.on (log : Nat) : LogOperation → Operation
  | append kind data _ => .append log kind data
  | compact summary keep => .compact log summary keep

/-- The deployment after a history of one log. -/
def Sessions.after (s : Sessions) (log : Nat) (operations : List LogOperation) : Sessions :=
  (operations.map (LogOperation.on log)).foldl step s

/-- A log with neither a reset nor a compaction, as it starts or is forked. -/
def Uncut (log : SessionLog) : Prop :=
  ∀ event ∈ log.events, event.kind ≠ EventKind.sessionReset ∧ event.kind ≠ EventKind.compaction

/-- Whether an append is stored. -/
def isStored (kind : String) (data : Dict) : Bool := isEventName kind && (checkJsonSafe data).isOk

/-- What a history does to its log. -/
def grown (log : SessionLog) : LogOperation → SessionLog
  | .append kind data _ => if isStored kind data then pushed log kind data else log
  | .compact summary keep => pushed log EventKind.compaction (Sessions.compactData log summary keep)

theorem Sessions.log?_step (s : Sessions) {log : Nat} {node : SessionLog} (hnode : s.log? log = some node)
    (operation : LogOperation) : (s.step (operation.on log)).log? log = some (grown node operation) := by
  cases operation with
  | append kind data plain =>
    simp only [LogOperation.on, step, apply, grown, isStored]
    cases happend : s.append log kind data with
    | ok s' =>
      obtain ⟨-, hname, hjson, rfl⟩ := append_eq_ok happend
      simp [hname, hjson, Except.isOk, Except.toBool, s.log?_push hnode]
    | error e =>
      have hrejected : (isEventName kind && (checkJsonSafe data).isOk) = false := by
        by_contra hstored
        obtain ⟨hname, hjson⟩ := Bool.and_eq_true_iff.mp (Bool.of_not_eq_false hstored)
        cases hcheck : checkJsonSafe data with
        | error e' => simp [hcheck, Except.isOk, Except.toBool] at hjson
        | ok u =>
            simp [append, hnode, validateEventName, hname, hcheck, bind, Except.bind, pure, Except.pure] at happend
      simpa [hrejected] using hnode
  | compact summary keep =>
    simp only [LogOperation.on, step, apply, s.compact_eq_ok hnode summary keep, grown]
    exact s.log?_push hnode _ _

theorem Sessions.log?_after (s : Sessions) {log : Nat} {node : SessionLog} (hnode : s.log? log = some node)
    (operations : List LogOperation) : (s.after log operations).log? log = some (operations.foldl grown node) := by
  induction operations generalizing s node with
  | nil => exact hnode
  | cons operation operations ih => exact ih (s.step (operation.on log)) (s.log?_step hnode operation)

/-! ## The entries a history leaves projected -/

/-- How many entries the surface of a log has, and how many of them it
projects. -/
structure Tally where
  entries : Nat
  live : Nat

/-- A stored surface event is one more entry; a compaction projects what it
retains. -/
def Tally.step (kinds : SurfaceKinds) (t : Tally) : LogOperation → Tally
  | .append kind data _ =>
    if isStored kind data && kinds.contains kind then { entries := t.entries + 1, live := t.live + 1 } else t
  | .compact _ keep => { t with live := retainedCount t.entries keep }

/-- The entries before the projected ones. -/
def Tally.hidden (t : Tally) : Nat := t.entries - t.live

/-- A compaction retains no more entries than are projected: there are no
others, it keeps at most those, or its wrapped slice is that short. -/
def LogOperation.Fits (t : Tally) : LogOperation → Prop
  | .append _ _ _ => True
  | .compact _ keep => t.live = t.entries ∨ keep ≤ t.live ∨ (t.entries < keep ∧ keep ≤ t.entries + t.live)

instance (t : Tally) : (operation : LogOperation) → Decidable (operation.Fits t)
  | .append _ _ _ => .isTrue trivial
  | .compact _ _ => inferInstanceAs (Decidable (_ ∨ _ ∨ _))

/-- Every operation of a history fits where it is done. -/
def Fitting (kinds : SurfaceKinds) : Tally → List LogOperation → Prop
  | _, [] => True
  | t, operation :: operations => operation.Fits t ∧ Fitting kinds (t.step kinds operation) operations

instance (kinds : SurfaceKinds) :
    (t : Tally) → (operations : List LogOperation) → Decidable (Fitting kinds t operations)
  | _, [] => .isTrue trivial
  | t, operation :: operations =>
    have := instDecidableFitting kinds (t.step kinds operation) operations
    inferInstanceAs (Decidable (_ ∧ _))

theorem fitting_append {kinds : SurfaceKinds} {t : Tally} {earlier later : List LogOperation} :
    Fitting kinds t (earlier ++ later) ↔
      Fitting kinds t earlier ∧ Fitting kinds (earlier.foldl (Tally.step kinds) t) later := by
  induction earlier generalizing t with
  | nil => simp [Fitting]
  | cons operation earlier ih => simp [Fitting, ih, and_assoc]

/-- A compaction fits if and only if it retains no more than is projected. -/
theorem fits_compact_iff {t : Tally} (h : t.live ≤ t.entries) (summary : String) (keep : Nat) :
    (LogOperation.compact summary keep).Fits t ↔ retainedCount t.entries keep ≤ t.live := by
  simp only [LogOperation.Fits]
  unfold retainedCount
  split_ifs <;> omega

/-! ## The invariant -/

/-- What a history keeps of its log: the last `live` of its `entries` are
projected. -/
structure Tracks (t : Tally) (log : SessionLog) : Prop where
  gapless : Gapless log.events
  noReset : latestOf log.events EventKind.sessionReset = none
  readable : ∀ compaction ∈ latestOf log.events EventKind.compaction, ∃ superseded retained summary,
    readCompaction compaction.data = some (superseded, retained, summary) ∧ superseded ≤ (log.events.length : Int)
  entries : (effectiveSurface log).length = t.entries
  live : t.live ≤ t.entries
  projected : projectedEntries log = (effectiveSurface log).drop t.hidden

theorem tracks_uncut {log : SessionLog} (hgapless : Gapless log.events) (huncut : Uncut log) :
    Tracks ⟨(effectiveSurface log).length, (effectiveSurface log).length⟩ log := by
  have hreset := latestOf_eq_none fun event hevent => (huncut event hevent).1
  have hcompaction := latestOf_eq_none fun event hevent => (huncut event hevent).2
  exact {
    gapless := hgapless
    noReset := hreset
    readable := by simp [hcompaction]
    entries := rfl
    live := Nat.le_refl _
    projected := by simp [projectedEntries, hcompaction, Tally.hidden] }

/-- A plain event is projected when it is a surface event. -/
theorem projectedEntries_pushed {t : Tally} {log : SessionLog} (h : Tracks t log) {kind : String} (data : Dict)
    (hplain : kind ≠ EventKind.sessionReset ∧ kind ≠ EventKind.compaction) :
    projectedEntries (pushed log kind data) =
      projectedEntries log ++
        if log.info.surfaceKinds.contains kind then [{ seq := log.events.length + 1, kind, data }] else [] := by
  have hsurface := effectiveSurface_pushed h.gapless kind data hplain.1
  rw [projectedEntries, projectedEntries, latestOf_pushed, if_neg hplain.2, resetFloor_pushed log data hplain.1,
    hsurface]
  cases hlatest : latestOf log.events EventKind.compaction with
  | none => rfl
  | some compaction =>
    obtain ⟨superseded, retained, summary, hread, hle⟩ := h.readable compaction hlatest
    have hnew : decide (superseded < ((log.events.length + 1 : Nat) : Int)) = true := by
      rw [decide_eq_true_iff]
      omega
    rw [Option.filter_some]
    by_cases hfloor : decide (resetFloor log.events < compaction.seq) = true
    · rw [if_pos hfloor]
      simp only [hread, keptBy, List.filter_append]
      congr 1
      by_cases hsurface : log.info.surfaceKinds.contains kind = true
      · rw [if_pos hsurface, List.filter_singleton, hnew, Bool.true_or]
        rfl
      · rw [if_neg hsurface, List.filter_nil]
    · rw [if_neg hfloor]

/-- One operation keeps the invariant, and the log's surface only grows. -/
theorem Tracks.step {t : Tally} {log : SessionLog} (h : Tracks t log) (operation : LogOperation) :
    Tracks (t.step log.info.surfaceKinds operation) (grown log operation) ∧
      effectiveSurface log <+: effectiveSurface (grown log operation) ∧
      (grown log operation).info = log.info := by
  have hlive := h.live
  have hentries := h.entries
  cases operation with
  | append kind data plain =>
    by_cases hstored : isStored kind data = true
    · have hsurface := effectiveSurface_pushed h.gapless kind data plain.1
      have hprojected := projectedEntries_pushed h data plain
      simp only [grown, Tally.step, hstored, if_true, Bool.true_and]
      refine ⟨⟨h.gapless.concat kind data, ?_, ?_, ?_, ?_, ?_⟩, ?_, rfl⟩
      · rw [latestOf_pushed, if_neg plain.1, h.noReset]
      · intro compaction hlatest
        rw [latestOf_pushed, if_neg plain.2] at hlatest
        obtain ⟨superseded, retained, summary, hread, hle⟩ := h.readable compaction hlatest
        refine ⟨superseded, retained, summary, hread, ?_⟩
        simp only [pushed, BranchLog.Node.push, List.length_append, List.length_singleton]
        omega
      · rw [hsurface, List.length_append, hentries]
        split_ifs <;> rfl
      · split_ifs
        · exact Nat.succ_le_succ hlive
        · exact hlive
      · rw [hprojected, hsurface, h.projected]
        split_ifs
        · rw [List.drop_append_of_le_length (by simp only [Tally.hidden]; omega)]
          simp [Tally.hidden]
        · simp
      · rw [hsurface]
        exact List.prefix_append _ _
    · simp only [grown, Tally.step, hstored]
      exact ⟨h, List.prefix_refl _, rfl⟩
  | compact summary keep =>
    have hsurface := effectiveSurface_pushed h.gapless EventKind.compaction (Sessions.compactData log summary keep)
      (by decide)
    rw [log.info.surfaceKinds.contains_logOnly (by decide), if_neg Bool.false_ne_true, List.append_nil] at hsurface
    simp only [grown, Tally.step]
    refine ⟨⟨h.gapless.concat _ _, ?_, ?_, ?_, retainedCount_le _ _, ?_⟩, ?_, rfl⟩
    · rw [latestOf_pushed, if_neg (by decide), h.noReset]
    · intro compaction hlatest
      rw [latestOf_pushed, if_pos rfl] at hlatest
      obtain rfl := Option.some.inj hlatest
      refine ⟨_, _, summary, readCompaction_compactData log summary keep, ?_⟩
      rw [supersededThrough]
      cases hlast : (effectiveSurface log).getLast? with
      | none => exact Int.natCast_nonneg _
      | some last =>
        have hmem := (List.mem_filter.mp (List.mem_filter.mp (List.mem_of_getLast? hlast)).1).1
        have hle := h.gapless.seq_le hmem
        simp only [Option.elim_some, pushed, BranchLog.Node.push, List.length_append, List.length_singleton]
        omega
    · rw [hsurface, hentries]
    · rw [projectedEntries_compacted h.gapless, hsurface, retainedTail, hentries, Tally.hidden]
    · rw [hsurface]

theorem Tracks.foldl {t : Tally} {log : SessionLog} (h : Tracks t log) (operations : List LogOperation) :
    Tracks (operations.foldl (Tally.step log.info.surfaceKinds) t) (operations.foldl grown log) ∧
      effectiveSurface log <+: effectiveSurface (operations.foldl grown log) ∧
      (operations.foldl grown log).info = log.info := by
  induction operations generalizing t log with
  | nil => exact ⟨h, List.prefix_refl _, rfl⟩
  | cons operation operations ih =>
    obtain ⟨hstep, hgrows, hinfo⟩ := h.step operation
    obtain ⟨hrun, hmore, hinfo'⟩ := ih hstep
    rw [hinfo] at hrun
    exact ⟨hrun, hgrows.trans hmore, hinfo'.trans hinfo⟩

/-- A fitting history hides no fewer entries than before. -/
theorem hidden_foldl {kinds : SurfaceKinds} {t : Tally} {operations : List LogOperation} (hlive : t.live ≤ t.entries)
    (h : Fitting kinds t operations) : t.hidden ≤ (operations.foldl (Tally.step kinds) t).hidden := by
  induction operations generalizing t with
  | nil => exact Nat.le_refl _
  | cons operation operations ih =>
    obtain ⟨hfits, hrest⟩ := h
    cases operation with
    | append kind data plain =>
      by_cases hadds : (isStored kind data && kinds.contains kind) = true
      · simp only [Tally.step, hadds, if_true] at hrest
        have hrec := ih (Nat.succ_le_succ hlive) hrest
        simp only [List.foldl_cons, Tally.step, hadds, if_true]
        refine Nat.le_trans ?_ hrec
        simp [Tally.hidden]
      · simp only [Tally.step, hadds] at hrest
        simp only [List.foldl_cons, Tally.step, hadds]
        exact ih hlive hrest
    | compact summary keep =>
      have hle := (fits_compact_iff hlive summary keep).mp hfits
      have hrec := ih (retainedCount_le t.entries keep) hrest
      refine Nat.le_trans ?_ hrec
      simp only [Tally.hidden, Tally.step]
      omega

/-! ## When superseded entries stay superseded -/

/-- An entry that is no longer projected is not projected again, at any later
point of a history of a deployment's log. -/
def SupersedesForever (s : Sessions) (log : Nat) (operations : List LogOperation) : Prop :=
  ∀ earlier later rest, operations = earlier ++ (later ++ rest) →
    ∀ before ∈ (s.after log earlier).log? log, ∀ now ∈ (s.after log (earlier ++ later)).log? log,
      ∀ entry ∈ effectiveSurface before, entry ∉ projectedEntries before → entry ∉ projectedEntries now

/-- `SupersedesForever` of the log alone. -/
def StaysSuperseded (log : SessionLog) (operations : List LogOperation) : Prop :=
  ∀ earlier later rest, operations = earlier ++ (later ++ rest) →
    ∀ entry ∈ effectiveSurface (earlier.foldl grown log), entry ∉ projectedEntries (earlier.foldl grown log) →
      entry ∉ projectedEntries (later.foldl grown (earlier.foldl grown log))

/-- In a strictly ordered list what is before a cut is not after a later one. -/
private theorem notMem_drop_of_grows {xs ys : List SessionEvent} (hpairwise : ys.Pairwise fun e e' => e.seq < e'.seq)
    (hgrows : xs <+: ys) {j k : Nat} (hjk : j ≤ k) {entry : SessionEvent} (hmem : entry ∈ xs)
    (hnot : entry ∉ xs.drop j) : entry ∉ ys.drop k := by
  intro hdrop
  obtain ⟨i, hi⟩ := List.mem_iff_getElem?.mp hmem
  have hlt : i < j := by
    by_contra hge
    apply hnot
    rw [List.mem_iff_getElem?]
    exact ⟨i - j, by rw [List.getElem?_drop, Nat.add_sub_cancel' (Nat.le_of_not_lt hge), hi]⟩
  obtain ⟨i', hi'⟩ := List.mem_iff_getElem?.mp hdrop
  rw [List.getElem?_drop] at hi'
  have hi₂ : ys[i]? = some entry := by
    obtain ⟨zs, rfl⟩ := hgrows
    rw [List.getElem?_append_left (List.getElem?_eq_some_iff.mp hi).1, hi]
  obtain ⟨hik, hget⟩ := List.getElem?_eq_some_iff.mp hi₂
  obtain ⟨hik', hget'⟩ := List.getElem?_eq_some_iff.mp hi'
  have hseq := List.pairwise_iff_getElem.mp hpairwise i (k + i') hik hik' (by omega)
  rw [hget, hget'] at hseq
  omega

theorem Tracks.staysSuperseded_iff {t : Tally} {log : SessionLog} (h : Tracks t log)
    (operations : List LogOperation) :
    StaysSuperseded log operations ↔ Fitting log.info.surfaceKinds t operations := by
  constructor
  · intro hstays
    induction operations generalizing t log with
    | nil => trivial
    | cons operation operations ih =>
      obtain ⟨hstep, hgrows, hinfo⟩ := h.step operation
      refine ⟨?_, ?_⟩
      · cases operation with
        | append kind data plain => trivial
        | compact summary keep =>
          -- otherwise the entry just before the projected ones comes back
          rw [fits_compact_iff h.live]
          by_contra hover
          have hlive := h.live
          have hretained := retainedCount_le t.entries keep
          have hentries := h.entries
          have hindex : t.hidden - 1 < (effectiveSurface log).length := by
            simp only [Tally.hidden]
            omega
          refine hstays [] [.compact summary keep] operations rfl (effectiveSurface log)[t.hidden - 1]
            (List.getElem_mem hindex) ?_ ?_
          · intro hmem
            rw [List.foldl_nil, h.projected] at hmem
            obtain ⟨i, hi⟩ := List.mem_iff_getElem?.mp hmem
            rw [List.getElem?_drop] at hi
            obtain ⟨hi', hget⟩ := List.getElem?_eq_some_iff.mp hi
            have hseq := List.pairwise_iff_getElem.mp (effectiveSurface_pairwise h.gapless) (t.hidden - 1)
              (t.hidden + i) hindex hi' (by simp only [Tally.hidden]; omega)
            rw [hget] at hseq
            omega
          · rw [List.foldl_nil, List.foldl_cons, List.foldl_nil, grown, projectedEntries_compacted h.gapless,
              retainedTail, hentries, List.mem_iff_getElem?]
            refine ⟨t.hidden - 1 - (t.entries - retainedCount t.entries keep), ?_⟩
            rw [List.getElem?_drop, Nat.add_sub_cancel' (by simp only [Tally.hidden]; omega),
              List.getElem?_eq_getElem hindex]
      · have hrest : StaysSuperseded (grown log operation) operations := fun earlier later rest hsplit =>
          hstays (operation :: earlier) later rest (by rw [hsplit]; rfl)
        have hfitting := ih hstep hrest
        rwa [hinfo] at hfitting
  · intro hfitting earlier later rest hsplit entry hmem hnot
    rw [hsplit, fitting_append, fitting_append] at hfitting
    obtain ⟨hearlier, -, hinfo⟩ := h.foldl earlier
    obtain ⟨hlater, hgrows, -⟩ := hearlier.foldl later
    rw [hearlier.projected] at hnot
    rw [hlater.projected, hinfo]
    exact notMem_drop_of_grows (effectiveSurface_pairwise hlater.gapless) hgrows
      (hidden_foldl hearlier.live hfitting.2.1) hmem hnot

/-- In the history of a log, what a compaction supersedes is never projected
again, exactly when every compaction fits. -/
theorem supersedes_iff_fits (s : Sessions) (log : Nat) (node : SessionLog) (hnode : s.log? log = some node)
    (huncut : Uncut node) (operations : List LogOperation) :
    SupersedesForever s log operations ↔
      Fitting node.info.surfaceKinds ⟨(effectiveSurface node).length, (effectiveSurface node).length⟩ operations := by
  rw [← (tracks_uncut (s.gapless_of_log? hnode) huncut).staysSuperseded_iff operations]
  constructor
  · intro h earlier later rest hsplit
    have hlater := s.log?_after hnode (earlier ++ later)
    rw [List.foldl_append] at hlater
    exact h earlier later rest hsplit _ (s.log?_after hnode earlier) _ hlater
  · intro h earlier later rest hsplit before hbefore now hnow
    rw [s.log?_after hnode, Option.mem_some_iff] at hbefore hnow
    rw [List.foldl_append] at hnow
    subst hbefore hnow
    exact h earlier later rest hsplit

/-- A user message appended to a log. -/
def appendUser (text : String) : LogOperation :=
  .append EventKind.userMessage [("message", encodeMessage (.user { content := .text text, timestamp := 0 }))]
    (by decide)

/-- A deployment of one empty log. -/
def oneLog : Sessions := Sessions.run [.create "s" .core]

theorem supersedes_overlapping :
    SupersedesForever oneLog 0
      [appendUser "one", appendUser "two", appendUser "three", .compact "first" 1, appendUser "four",
        .compact "second" 2] :=
  (supersedes_iff_fits oneLog 0 _ rfl (by intro event hevent; cases hevent) _).mpr (by decide)

/-- After a compaction that keeps one entry, one that keeps three brings the
first entry back. -/
theorem superseded_returns :
    ¬ ∀ (s : Sessions) (log : Nat) (node : SessionLog), s.log? log = some node → Uncut node →
      ∀ operations, SupersedesForever s log operations := by
  intro h
  have hnever := h oneLog 0 _ rfl (by intro event hevent; cases hevent)
    [appendUser "one", appendUser "two", appendUser "three", .compact "first" 1, .compact "second" 3]
    [appendUser "one", appendUser "two", appendUser "three", .compact "first" 1] [.compact "second" 3] [] rfl
    _ rfl _ rfl
    { seq := 1, kind := EventKind.userMessage,
      data := [("message", encodeMessage (.user { content := .text "one", timestamp := 0 }))] }
  exact hnever (by decide) (by decide) (by decide)

end MinionAgent
