import MinionAgent.Library.Table
import MinionAgent.Tools.Batch

/-!
# MinionAgent.Tools.BatchRuns

What every run of a batch keeps, and what it returns.

* `CallStage.History` — what a batch has emitted about a call in a stage;
* `Batch.Sound` — what every run keeps;
* `Batch.faithful_of_run` — the outcome of a batch.
-/

namespace MinionAgent

/-! ## Histories -/

/-- What a batch has emitted about a call that is executed, before its end. -/
def executionItems (i : ℕ) (reports : List ToolPartialResult) : List BatchItem :=
  .started i :: .executing i :: reports.map (.updated i)

/-- What a batch has emitted about a call in a stage. -/
def CallStage.History (i : ℕ) : CallStage → List BatchItem → Prop
  | .preflight, items | .prepared, items => items = [.started i]
  | .executing, items | .executed _, items => ∃ reports, items = executionItems i reports
  | .ending result, items =>
    items = [.started i, .ended i result] ∨ ∃ reports, items = executionItems i reports ++ [.ended i result]
  | .completed result, items =>
    items = [.started i, .ended i result, .completed i] ∨
      ∃ reports, items = executionItems i reports ++ [.ended i result, .completed i]

/-- The result that a stage has. -/
@[grind] def CallStage.result? : CallStage → Option ToolResult
  | .executed result | .ending result | .completed result => some result
  | _ => none

/-- The call that an item starts. -/
def BatchItem.started? : BatchItem → Option ℕ
  | .started i => some i
  | _ => none

/-- The call that an item completes. -/
def BatchItem.completed? : BatchItem → Option ℕ
  | .completed i => some i
  | _ => none

/-- The item is the invocation of `execute`. -/
@[grind] def BatchItem.isExecuting : BatchItem → Bool
  | .executing _ => true
  | _ => false

namespace Batch

/-- What was emitted about a call. -/
def about (s : Batch) (i : ℕ) : List BatchItem := s.items.filter fun item => item.call == i

/-! ## Steps -/

/-- What happens to one call: the stage it was in and the one it enters, what
is emitted, and what else changes. -/
inductive Moved (s : Batch) (i : ℕ) (call : ToolCallBlock) : CallStage → CallStage → List BatchItem → Batch → Prop
  | immediate (result : ToolResult) (about : result.About call) :
    Moved s i call .preflight (.ending result) [.ended i result] (s.enter i (.ending result) [.ended i result])
  | prepared (stopped : Bool) (lengthStop : s.mode ≠ .lengthStop) :
    Moved s i call .preflight .prepared [] { s.enter i .prepared [] with stopped := s.stopped || stopped }
  | execute (ready : s.mode = .parallel → s.gathered = true) :
    Moved s i call .prepared .executing [.executing i] (s.enter i .executing [.executing i])
  | update (report : ToolPartialResult) :
    Moved s i call .executing .executing [.updated i report] (s.enter i .executing [.updated i report])
  | settle (result : ToolResult) (about : result.About call) :
    Moved s i call .executing (.executed result) [] (s.enter i (.executed result) [])
  | finish (result result' : ToolResult) (about : result.About call → result'.About call) :
    Moved s i call (.executed result) (.ending result') [.ended i result']
      (s.enter i (.ending result') [.ended i result'])
  | complete (result : ToolResult) (stopped : Bool) :
    Moved s i call (.ending result) (.completed result) [.completed i]
      { s.enter i (.completed result) [.completed i] with
        completion := s.completion ++ [result.toolCallId], stopped := s.stopped || stopped }

/-- What a step does. -/
inductive Stepped (s : Batch) : Batch → Prop
  | start (head : s.atHead = true) (going : s.stopped = false) (more : s.stages.length < s.calls.length) :
    Stepped s { s with stages := s.stages ++ [.preflight], items := s.items ++ [.started s.stages.length] }
  | gather (mode : s.mode = .parallel) (fresh : s.gathered = false) (loop : s.loopOver = true) :
    Stepped s { s with gathered := true }
  | call {i : ℕ} {call : ToolCallBlock} {stage stage' : CallStage} {items : List BatchItem} {s' : Batch}
      (there : s.stages[i]? = some stage) (called : s.calls[i]? = some call)
      (moved : Moved s i call stage stage' items s') :
    Stepped s s'

variable {s s' : Batch} {e : BatchEvent}

theorem moved_of_callStep {i : ℕ} {call : ToolCallBlock} {stage : CallStage} (h : s.callStep i call stage e = some s') :
    ∃ stage' items, Moved s i call stage stage' items s' := by
  cases stage <;> cases e <;> simp only [callStep, reduceCtorEq] at h
  case preflight.decide j aborted answer =>
    split at h
    · next result hdecide =>
      cases h
      refine ⟨_, _, .immediate result ?_⟩
      rw [decide] at hdecide
      split at hdecide
      · cases hdecide
        exact textResult_about call _ _ _
      · exact preflight_about hdecide
    · next hdecide =>
      cases h
      refine ⟨_, _, .prepared _ fun hmode => ?_⟩
      simp [decide, hmode] at hdecide
  case prepared.execute j =>
    split at h
    · cases h
    · next hready =>
      cases h
      exact ⟨_, _, .execute fun hmode => by simpa [hmode] using hready⟩
  case executing.update j report =>
    cases h
    exact ⟨_, _, .update report⟩
  case executing.settle j answer =>
    cases h
    exact ⟨_, _, .settle _ (executedResult_about call answer)⟩
  case executed.finish result j after =>
    cases h
    exact ⟨_, _, .finish result _ fun habout => finalizedResult_about habout after⟩
  case ending.complete result j aborted =>
    cases h
    exact ⟨_, _, .complete result _⟩

theorem stepped (h : s.step e = some s') : Stepped s s' := by
  cases e with
  | start =>
    simp only [step] at h
    split at h
    · next hready =>
      cases h
      exact .start hready.1 hready.2.1 hready.2.2
    · cases h
  | gather =>
    simp only [step] at h
    split at h
    · next hready =>
      cases h
      exact .gather hready.1 hready.2.1 hready.2.2
    · cases h
  | decide i | execute i | update i | settle i | finish i | complete i =>
    simp only [step, BatchEvent.call?, Option.bind_eq_bind, Option.bind_some, Option.bind_eq_some_iff] at h
    obtain ⟨stage, hstage, call, hcall, h⟩ := h
    obtain ⟨stage', items, hmoved⟩ := moved_of_callStep h
    exact .call hstage hcall hmoved

/-! ## Calls move on -/

section Moved

variable {i : ℕ} {call : ToolCallBlock} {stage stage' : CallStage} {news : List BatchItem}

/-- What a call's step changes. -/
theorem Moved.changes (h : Moved s i call stage stage' news s') :
    s'.calls = s.calls ∧ s'.mode = s.mode ∧ s'.gathered = s.gathered ∧ s'.stages = s.stages.set i stage' ∧
      s'.items = s.items ++ news := by
  cases h <;> exact ⟨rfl, rfl, rfl, rfl, rfl⟩

/-- A step of a call emits about that call, and starts none. -/
theorem Moved.call_news (h : Moved s i call stage stage' news s') :
    (∀ item ∈ news, item.call = i) ∧ news.filterMap BatchItem.started? = [] := by
  cases h <;> simp [BatchItem.call, BatchItem.started?]

/-- The history of a call goes on with what its step emits. -/
theorem Moved.history (h : Moved s i call stage stage' news s') {emitted : List BatchItem}
    (hstage : stage.History i emitted) : stage'.History i (emitted ++ news) := by
  cases h with
  | immediate result => exact .inl (by rw [CallStage.History] at hstage; rw [hstage]; rfl)
  | prepared => exact (List.append_nil emitted).trans hstage
  | execute => exact ⟨[], by rw [CallStage.History] at hstage; rw [hstage]; rfl⟩
  | update report =>
    obtain ⟨reports, rfl⟩ := hstage
    exact ⟨reports ++ [report], by simp [executionItems]⟩
  | settle result =>
    obtain ⟨reports, rfl⟩ := hstage
    exact ⟨reports, List.append_nil _⟩
  | finish result result' =>
    obtain ⟨reports, rfl⟩ := hstage
    exact .inr ⟨reports, rfl⟩
  | complete result =>
    obtain rfl | ⟨reports, rfl⟩ := hstage
    · exact .inl rfl
    · exact .inr ⟨reports, by simp⟩

/-- A call keeps its own result. -/
theorem Moved.result_about (h : Moved s i call stage stage' news s')
    (hstage : ∀ r, stage.result? = some r → r.About call) :
    ∀ r, stage'.result? = some r → r.About call := by
  cases h with
  | immediate result about => exact fun r hr => by cases hr; exact about
  | prepared | execute | update => exact fun r hr => by cases hr
  | settle result about => exact fun r hr => by cases hr; exact about
  | finish result result' about => exact fun r hr => by cases hr; exact about (hstage result rfl)
  | complete result => exact fun r hr => by cases hr; exact hstage _ rfl

/-- A call joins the completion order as it completes. -/
theorem Moved.completion (h : Moved s i call stage stage' news s')
    (hstage : ∀ r, stage.result? = some r → r.About call) :
    s'.completion = s.completion ++ (news.filterMap BatchItem.completed?).map fun _ => call.id := by
  cases h with
  | complete result => simp [BatchItem.completed?, (hstage result rfl).toolCallId]
  | _ => simp [enter, BatchItem.completed?]

/-- No call is executed before the batch has gathered. -/
theorem Moved.not_executing (h : Moved s i call stage stage' news s') (hmode : s.mode = .parallel)
    (hgathered : s.gathered = false) : ∀ item ∈ news, item.isExecuting = false := by
  cases h with
  | execute ready => simp [ready hmode] at hgathered
  | _ => simp [BatchItem.isExecuting]

/-- Whoever is done does not move. -/
theorem Moved.not_completed (h : Moved s i call stage stage' news s') : stage.completed? = none := by
  cases h <;> rfl

end Moved

/-! ## What every run keeps -/

/-- What every run of a batch keeps. -/
structure Sound (s : Batch) : Prop where
  short : s.stages.length ≤ s.calls.length
  history : ∀ (i : ℕ) (stage : CallStage), s.stages[i]? = some stage → stage.History i (s.about i)
  reached : ∀ item ∈ s.items, item.call < s.stages.length
  starts : s.items.filterMap BatchItem.started? = List.range s.stages.length
  result : ∀ (i : ℕ) (stage : CallStage), s.stages[i]? = some stage → ∀ call, s.calls[i]? = some call →
    ∀ r, stage.result? = some r → r.About call
  completion : s.completion.map some =
    (s.items.filterMap BatchItem.completed?).map fun i => (s.calls[i]?).map ToolCallBlock.id
  gathered : s.gathered = true → s.mode = .parallel ∧ (s.stopped = true ∨ s.stages.length = s.calls.length)
  barrier : s.mode = .parallel → ∃ before after, s.items = before ++ after ∧
    (∀ item ∈ before, item.isExecuting = false) ∧ (∀ item ∈ after, item.started? = none) ∧
    (s.gathered = false → after = [])
  alone : s.mode ≠ .parallel → (s.items.map BatchItem.call).Pairwise (· ≤ ·) ∧
    ∀ (i : ℕ) (stage : CallStage), s.stages[i]? = some stage → i + 1 < s.stages.length → stage.completed?.isSome

theorem sound_start (calls : List ToolCallBlock) (mode : BatchMode) : Sound { calls, mode } where
  short := Nat.zero_le _
  history := by simp
  reached := by simp
  starts := rfl
  result := by simp
  completion := rfl
  gathered := by simp
  barrier _ := ⟨[], [], rfl, by simp, by simp, fun _ => rfl⟩
  alone _ := ⟨List.Pairwise.nil, by simp⟩

section Kept

variable {i : ℕ} {call : ToolCallBlock} {stage stage' : CallStage} {news : List BatchItem}

/-- What is emitted about the others stays. -/
theorem about_append (h : ∀ item ∈ news, item.call = i) (hitems : s'.items = s.items ++ news) (j : ℕ) :
    s'.about j = if j = i then s.about j ++ news else s.about j := by
  rw [about, hitems, List.filter_append]
  split
  · next hj =>
    congr 1
    exact List.filter_eq_self.mpr fun item hitem => by simp [h item hitem, hj]
  · next hj =>
    have hnews : news.filter (fun item => item.call == j) = [] :=
      List.filter_eq_nil_iff.mpr fun item hitem => by simp [h item hitem, Ne.symm hj]
    rw [hnews, List.append_nil]
    rfl

theorem history_moved (hsound : Sound s) (hthere : s.stages[i]? = some stage)
    (h : Moved s i call stage stage' news s') :
    ∀ (j : ℕ) (stage : CallStage), s'.stages[j]? = some stage → stage.History j (s'.about j) := by
  obtain ⟨-, -, -, hstages, hitems⟩ := h.changes
  have habout := about_append h.call_news.1 hitems
  rw [hstages]
  refine (Table.changed_set hthere stage').forall_of_ne (fun j b hne hj => ?_) ?_
  · rw [habout, if_neg hne]
    exact hsound.history j b hj
  · rw [habout, if_pos rfl]
    exact h.history (hsound.history i stage hthere)

/-- In a batch without calls side by side, it is the last call that moves. -/
theorem last_moved (hsound : Sound s) (hmode : s.mode ≠ .parallel) (hthere : s.stages[i]? = some stage)
    (h : Moved s i call stage stage' news s') : i + 1 = s.stages.length := by
  have hi := (List.getElem?_eq_some_iff.mp hthere).1
  by_contra hne
  have hdone := (hsound.alone hmode).2 i stage hthere (by omega)
  simp [h.not_completed] at hdone

theorem alone_moved (hsound : Sound s) (hthere : s.stages[i]? = some stage) (h : Moved s i call stage stage' news s') :
    s'.mode ≠ .parallel → (s'.items.map BatchItem.call).Pairwise (· ≤ ·) ∧
      ∀ (j : ℕ) (stage : CallStage), s'.stages[j]? = some stage → j + 1 < s'.stages.length →
        stage.completed?.isSome := by
  obtain ⟨-, hmode, -, hstages, hitems⟩ := h.changes
  rw [hmode]
  intro hnot
  have hlast := last_moved hsound hnot hthere h
  obtain ⟨hsorted, hdone⟩ := hsound.alone hnot
  refine ⟨?_, ?_⟩
  · rw [hitems, List.map_append, List.pairwise_append]
    have hnews : news.map BatchItem.call = List.replicate news.length i := by
      rw [List.eq_replicate_iff]
      simp only [List.length_map, List.mem_map, true_and]
      rintro j ⟨item, hitem, rfl⟩
      exact h.call_news.1 item hitem
    refine ⟨hsorted, ?_, ?_⟩
    · rw [hnews]
      exact List.pairwise_replicate.mpr (.inr le_rfl)
    · intro j hj k hk
      obtain ⟨item, hitem, rfl⟩ := List.mem_map.mp hj
      obtain ⟨item', hitem', rfl⟩ := List.mem_map.mp hk
      have hreached := hsound.reached item hitem
      rw [h.call_news.1 item' hitem']
      omega
  · rw [hstages, List.length_set]
    refine (Table.changed_set hthere stage').forall_of_ne (fun j b _ hj => hdone j b hj) fun hlt => ?_
    omega

theorem barrier_moved (hsound : Sound s) (h : Moved s i call stage stage' news s') :
    s'.mode = .parallel → ∃ before after, s'.items = before ++ after ∧ (∀ item ∈ before, item.isExecuting = false) ∧
      (∀ item ∈ after, item.started? = none) ∧ (s'.gathered = false → after = []) := by
  obtain ⟨-, hmode, hgathered, -, hitems⟩ := h.changes
  rw [hmode, hgathered, hitems]
  intro hparallel
  obtain ⟨before, after, hsplit, hbefore, hafter, hnone⟩ := hsound.barrier hparallel
  rw [hsplit]
  cases hg : s.gathered with
  | false =>
    have hnews := h.not_executing hparallel hg
    obtain rfl := hnone hg
    refine ⟨before ++ news, [], by simp, fun item hitem => ?_, by simp, fun _ => rfl⟩
    exact (List.mem_append.mp hitem).elim (hbefore item) (hnews item)
  | true =>
    refine ⟨before, after ++ news, by simp, hbefore, fun item hitem => ?_, by simp⟩
    exact (List.mem_append.mp hitem).elim (hafter item) (List.filterMap_eq_nil_iff.mp h.call_news.2 item)

theorem sound_moved (hsound : Sound s) (hthere : s.stages[i]? = some stage) (hcalled : s.calls[i]? = some call)
    (h : Moved s i call stage stage' news s') : Sound s' := by
  obtain ⟨hcalls, hmode, hgathered, hstages, hitems⟩ := h.changes
  have hchanged := Table.changed_set hthere stage'
  have hresult := hsound.result i stage hthere call hcalled
  constructor
  · rw [hcalls, hstages, List.length_set]
    exact hsound.short
  · exact history_moved hsound hthere h
  · rw [hitems, hstages, List.length_set]
    intro item hitem
    obtain hold | hnew := List.mem_append.mp hitem
    · exact hsound.reached item hold
    · rw [h.call_news.1 item hnew]
      exact (List.getElem?_eq_some_iff.mp hthere).1
  · rw [hitems, hstages, List.length_set, List.filterMap_append, h.call_news.2, List.append_nil]
    exact hsound.starts
  · rw [hcalls, hstages]
    refine hchanged.forall_of_ne (fun j b _ hj => hsound.result j b hj) fun call' hcall' => ?_
    obtain rfl := Option.some.inj (hcalled.symm.trans hcall')
    exact h.result_about hresult
  · have hmarks : ∀ j ∈ news.filterMap BatchItem.completed?, j = i := by
      intro j hj
      obtain ⟨item, hitem, hcompleted⟩ := List.mem_filterMap.mp hj
      have hcall := h.call_news.1 item hitem
      cases item <;> simp_all [BatchItem.completed?, BatchItem.call]
    rw [h.completion hresult, hitems, List.filterMap_append, List.map_append, List.map_append, hsound.completion,
      hcalls, List.map_map]
    congr 1
    refine List.map_congr_left fun j hj => ?_
    rw [hmarks j hj, hcalled]
    rfl
  · rw [hgathered, hmode, hstages, List.length_set, hcalls]
    intro hg
    obtain ⟨hparallel, hover⟩ := hsound.gathered hg
    refine ⟨hparallel, hover.imp_left fun hstopped => ?_⟩
    cases h <;> simp [enter, hstopped]
  · exact barrier_moved hsound h
  · exact alone_moved hsound hthere h

end Kept

/-- A call that the loop comes to. -/
theorem sound_started (hsound : Sound s) (hhead : s.atHead = true) (hgoing : s.stopped = false)
    (hmore : s.stages.length < s.calls.length) :
    Sound { s with stages := s.stages ++ [.preflight], items := s.items ++ [.started s.stages.length] } where
  short := by simpa using Nat.succ_le_of_lt hmore
  history := by
    have hnone : s.about s.stages.length = [] := List.filter_eq_nil_iff.mpr fun item hitem => by
      simpa using Nat.ne_of_lt (hsound.reached item hitem)
    let s' : Batch := { s with stages := s.stages ++ [.preflight], items := s.items ++ [.started s.stages.length] }
    have habout : ∀ j,
        s'.about j = if j = s.stages.length then s.about j ++ [.started s.stages.length] else s.about j :=
      about_append (by simp [BatchItem.call]) rfl
    change ∀ (j : ℕ) (stage : CallStage), s'.stages[j]? = some stage → stage.History j (s'.about j)
    intro j stage hj
    rw [habout]
    obtain hold | ⟨rfl, rfl⟩ := Table.getElem?_concat_cases hj
    · rw [if_neg (Nat.ne_of_lt (List.getElem?_eq_some_iff.mp hold).1)]
      exact hsound.history j stage hold
    · simp [hnone, CallStage.History]
  reached := by
    intro item hitem
    simp only [List.length_append, List.length_singleton]
    obtain hold | hnew := List.mem_append.mp hitem
    · exact Nat.lt_succ_of_lt (hsound.reached item hold)
    · rw [List.mem_singleton.mp hnew]
      exact Nat.lt_succ_self _
  starts := by
    rw [List.filterMap_append, hsound.starts, List.length_append, List.length_singleton, List.range_succ]
    rfl
  result := Table.forall_concat hsound.result fun call _ r hr => by cases hr
  completion := by
    have hnone : [BatchItem.started s.stages.length].filterMap BatchItem.completed? = [] := rfl
    rw [List.filterMap_append, hnone, List.append_nil]
    exact hsound.completion
  gathered hg := by
    obtain ⟨-, hover⟩ := hsound.gathered hg
    obtain hstopped | hlength := hover
    · simp [hgoing] at hstopped
    · exact absurd hlength (Nat.ne_of_lt hmore)
  barrier hparallel := by
    obtain ⟨before, after, hsplit, hbefore, hafter, hnone⟩ := hsound.barrier hparallel
    have hfresh : s.gathered = false := by
      cases hg : s.gathered with
      | false => rfl
      | true =>
        obtain hstopped | hlength := (hsound.gathered hg).2
        · simp [hgoing] at hstopped
        · exact absurd hlength (Nat.ne_of_lt hmore)
    obtain rfl := hnone hfresh
    refine ⟨before ++ [.started s.stages.length], [], by simp [hsplit], fun item hitem => ?_, by simp, fun _ => rfl⟩
    obtain hold | hnew := List.mem_append.mp hitem
    · exact hbefore item hold
    · rw [List.mem_singleton.mp hnew]
      rfl
  alone hmode := by
    obtain ⟨hsorted, -⟩ := hsound.alone hmode
    refine ⟨?_, fun j stage hj hlt => ?_⟩
    · rw [List.map_append, List.pairwise_append]
      refine ⟨hsorted, List.pairwise_singleton _ _, fun j hj k hk => ?_⟩
      obtain ⟨item, hitem, rfl⟩ := List.mem_map.mp hj
      rw [List.map_singleton, List.mem_singleton] at hk
      rw [hk]
      exact Nat.le_of_lt (hsound.reached item hitem)
    · simp only [List.length_append, List.length_singleton] at hlt
      rw [List.getElem?_append_left (by omega)] at hj
      have hall := List.all_eq_true.mp hhead stage (List.mem_of_getElem? hj)
      simpa [hmode] using hall

theorem sound_gathered (hsound : Sound s) (hmode : s.mode = .parallel) (hover : s.loopOver = true) :
    Sound { s with gathered := true } where
  short := hsound.short
  history := hsound.history
  reached := hsound.reached
  starts := hsound.starts
  result := hsound.result
  completion := hsound.completion
  gathered _ := ⟨hmode, by simpa using (Bool.and_eq_true_iff.mp hover).2⟩
  barrier hparallel := by
    obtain ⟨before, after, hsplit, hbefore, hafter, -⟩ := hsound.barrier hparallel
    exact ⟨before, after, hsplit, hbefore, hafter, by simp⟩
  alone hnot := absurd hmode hnot

theorem sound_step (hsound : Sound s) (h : s.step e = some s') : Sound s' := by
  cases stepped h with
  | start head going more => exact sound_started hsound head going more
  | gather mode fresh loop => exact sound_gathered hsound mode loop
  | call there called moved => exact sound_moved hsound there called moved

theorem sound_run {calls : List ToolCallBlock} {mode : BatchMode} {es : List BatchEvent}
    (h : run calls mode es = some s) :
    Sound s :=
  Transition.run_preserves (fun _ _ _ hs hstep => sound_step hs hstep) h (sound_start calls mode)

/-! ## The outcome -/

/-- Where every call is done, the stages are the results. -/
theorem stages_eq (h : s.stages.all (fun stage => stage.completed?.isSome) = true) :
    s.stages = s.results.map .completed := by
  rw [results]
  generalize s.stages = stages at h
  induction stages with
  | nil => rfl
  | cons stage stages ih =>
    rw [List.all_cons, Bool.and_eq_true] at h
    cases stage with
    | completed result =>
      change _ = CallStage.completed result :: (stages.filterMap CallStage.completed?).map CallStage.completed
      rw [← ih h.2]
    | _ => cases h.1

/-- The completions of a call are among what was emitted about it. -/
theorem completed_about (items : List BatchItem) (i : ℕ) :
    (items.filterMap BatchItem.completed?).count i =
      ((items.filter fun item => item.call == i).filterMap BatchItem.completed?).count i := by
  induction items with
  | nil => rfl
  | cons item items ih =>
    cases item <;> grind [BatchItem.completed?, BatchItem.call]

theorem count_completed {i : ℕ} {result : ToolResult} {items : List BatchItem}
    (h : (CallStage.completed result).History i items) : (items.filterMap BatchItem.completed?).count i = 1 := by
  obtain rfl | ⟨reports, rfl⟩ := h
  · simp [List.filterMap_cons, BatchItem.completed?]
  · have hreports : (reports.map (BatchItem.updated i)).filterMap BatchItem.completed? = [] := by
      simp [List.filterMap_map, Function.comp_def, BatchItem.completed?]
    simp [executionItems, List.filterMap_cons, hreports, BatchItem.completed?]

/-- What a batch of calls emits and returns. -/
structure Faithful (calls : List ToolCallBlock) (mode : BatchMode) (items : List BatchItem) (outcome : BatchOutcome) :
    Prop where
  /-- The results are those of the first calls, in source order, and each call
  was started, perhaps executed, ended with its result and completed, once. -/
  results : ∀ (i : ℕ) (result : ToolResult), outcome.results[i]? = some result →
    ∃ call, calls[i]? = some call ∧ result.About call ∧
      (CallStage.completed result).History i (items.filter fun item => item.call == i)
  /-- The calls are started in source order, and nothing happens to another. -/
  starts : items.filterMap BatchItem.started? = List.range outcome.results.length
  others : ∀ item ∈ items, item.call < outcome.results.length
  /-- The completion order is that in which the calls complete, each once. -/
  completion : outcome.completionOrder.map some =
    (items.filterMap BatchItem.completed?).map fun i => (calls[i]?).map ToolCallBlock.id
  once : (items.filterMap BatchItem.completed?).Perm (List.range outcome.results.length)
  /-- Side by side, no call is executed before the last one has started. -/
  barrier : mode = .parallel → ∃ before after, items = before ++ after ∧
    (∀ item ∈ before, item.isExecuting = false) ∧ ∀ item ∈ after, item.started? = none
  /-- Else one call is over before the next one starts. -/
  alone : mode ≠ .parallel → (items.map BatchItem.call).Pairwise (· ≤ ·)
  terminate : outcome.terminate = true ↔
    mode ≠ .lengthStop ∧ outcome.results ≠ [] ∧ ∀ result ∈ outcome.results, result.terminate = true

theorem faithful_of_sound (hsound : Sound s) {outcome : BatchOutcome} (h : s.outcome? = some outcome) :
    Faithful s.calls s.mode s.items outcome := by
  rw [outcome?] at h
  split at h
  case isFalse => cases h
  case isTrue hdone =>
    cases h
    rw [done, Bool.and_eq_true] at hdone
    have hstages := stages_eq hdone.2
    have hlength : s.results.length = s.stages.length := by rw [hstages, List.length_map]
    have hthere : ∀ (i : ℕ) (result : ToolResult), s.results[i]? = some result →
        s.stages[i]? = some (.completed result) := by
      intro i result hresult
      rw [hstages, List.getElem?_map, hresult, Option.map_some]
    constructor
    · intro i result hresult
      have hstage := hthere i result hresult
      have hi := (List.getElem?_eq_some_iff.mp hstage).1
      have hcall := List.getElem?_eq_getElem (Nat.lt_of_lt_of_le hi hsound.short)
      exact ⟨_, hcall, hsound.result i _ hstage _ hcall result rfl, hsound.history i _ hstage⟩
    · rw [hlength]
      exact hsound.starts
    · rw [hlength]
      exact hsound.reached
    · exact hsound.completion
    · rw [List.perm_iff_count]
      intro i
      rw [completed_about]
      by_cases hi : i < s.results.length
      · have hhistory := hsound.history i _ (hthere i _ (List.getElem?_eq_getElem hi))
        rw [List.count_eq_one_of_mem List.nodup_range (List.mem_range.mpr hi)]
        exact count_completed hhistory
      · have hnone : s.about i = [] := List.filter_eq_nil_iff.mpr fun item hitem => by
          have := hsound.reached item hitem
          simp only [beq_iff_eq]
          omega
        rw [List.count_eq_zero_of_not_mem fun hmem => hi (List.mem_range.mp hmem)]
        change ((s.about i).filterMap BatchItem.completed?).count i = 0
        rw [hnone]
        rfl
    · intro hmode
      obtain ⟨before, after, hsplit, hbefore, hafter, -⟩ := hsound.barrier hmode
      exact ⟨before, after, hsplit, hbefore, hafter⟩
    · exact fun hmode => (hsound.alone hmode).1
    · simp [and_assoc]

/-- A batch keeps its calls and its mode. -/
theorem same_of_step {calls : List ToolCallBlock} {mode : BatchMode} (h : s.step e = some s')
    (hs : s.calls = calls ∧ s.mode = mode) : s'.calls = calls ∧ s'.mode = mode := by
  cases stepped h with
  | start | gather => exact hs
  | call there called moved =>
    obtain ⟨hcalls, hmode, -, -, -⟩ := moved.changes
    rw [hcalls, hmode]
    exact hs

/-- A batch is stopped only where the signal is aborted. -/
theorem stopped_of_step (h : s.step e = some s') (hstopped : s'.stopped = true) :
    s.stopped = true ∨ e.aborted = true := by
  cases e with
  | start =>
    simp only [step] at h
    split at h
    · cases h
      exact .inl hstopped
    · cases h
  | gather =>
    simp only [step] at h
    split at h
    · cases h
      exact .inl hstopped
    · cases h
  | decide i | execute i | update i | settle i | finish i | complete i =>
    simp only [step, BatchEvent.call?, Option.bind_eq_bind, Option.bind_some, Option.bind_eq_some_iff] at h
    obtain ⟨stage, -, call, -, h⟩ := h
    cases stage <;> simp only [callStep, reduceCtorEq] at h
    all_goals grind [enter, BatchEvent.aborted]

theorem going_of_run {calls : List ToolCallBlock} {mode : BatchMode} {es : List BatchEvent}
    (h : run calls mode es = some s) (hes : ∀ e ∈ es, e.aborted = false) : s.stopped = false := by
  have hkept : ∀ (x : Batch) (e : BatchEvent) (x' : Batch), x.stopped = false → e.aborted = false → x.step e = some x' →
      x'.stopped = false := by
    intro x e x' hx he hstep
    cases hx' : x'.stopped with
    | false => rfl
    | true => exact absurd (stopped_of_step hstep hx') (by simp [hx, he])
  exact Transition.run_preserves_of_forall hkept h hes rfl

/-! ## Progress -/

end Batch

/-- How many steps a call has before it. -/
def CallStage.left : CallStage → ℕ
  | .preflight => 5
  | .prepared => 4
  | .executing => 3
  | .executed _ => 2
  | .ending _ => 1
  | .completed _ => 0

/-- A tool reports as often as it likes. -/
def BatchEvent.isUpdate : BatchEvent → Bool
  | .update _ _ => true
  | _ => false

namespace Batch

variable {s s' : Batch} {e : BatchEvent} {es : List BatchEvent}

/-- How many steps a batch has before it, but for reports. -/
def left (s : Batch) : ℕ :=
  6 * (s.calls.length - s.stages.length) + (s.stages.map CallStage.left).sum + if s.gathered then 0 else 1

theorem left_of_step (h : s.step e = some s') : s'.left + (if e.isUpdate then 0 else 1) ≤ s.left := by
  cases e with
  | start =>
    simp only [step] at h
    split at h
    · next hready =>
      cases h
      have hmore := hready.2.2
      simp only [left, BatchEvent.isUpdate, List.map_append, List.sum_append, List.length_append, List.length_singleton,
        List.map_singleton, List.sum_singleton, CallStage.left, Bool.false_eq_true, if_false]
      split <;> omega
    · cases h
  | gather =>
    simp only [step] at h
    split at h
    · next hready =>
      cases h
      simp [left, BatchEvent.isUpdate, hready.2.1]
    · cases h
  | decide i | execute i | update i | settle i | finish i | complete i =>
    simp only [step, BatchEvent.call?, Option.bind_eq_bind, Option.bind_some, Option.bind_eq_some_iff] at h
    obtain ⟨stage, hstage, call, -, h⟩ := h
    have hsum := Table.sum_map_set hstage CallStage.left
    cases stage <;> simp only [callStep, reduceCtorEq] at h
    all_goals
      simp only [CallStage.left] at hsum
      try split at h
    all_goals cases h
    all_goals
      simp only [left, enter, List.length_set, BatchEvent.isUpdate]
      grind [CallStage.left]

theorem step_of_call {i : ℕ} {stage : CallStage} {call : ToolCallBlock} (hstage : s.stages[i]? = some stage)
    (hcall : s.calls[i]? = some call) (he : e.call? = some i) : s.step e = s.callStep i call stage e := by
  cases e with
  | start | gather => cases he
  | decide j | execute j | update j | settle j | finish j | complete j =>
    cases he
    simp [step, BatchEvent.call?, hstage, hcall]

/-- A call that is under way goes on, whatever its answers are. -/
theorem exists_callStep (hsound : Sound s) {i : ℕ} {stage : CallStage} (hstage : s.stages[i]? = some stage)
    (hundone : stage.completed? = none) (hready : stage = .prepared → s.mode = .parallel → s.gathered = true) :
    ∃ e, e.isUpdate = false ∧ (s.step e).isSome := by
  have hi := (List.getElem?_eq_some_iff.mp hstage).1
  obtain ⟨call, hcall⟩ : ∃ call, s.calls[i]? = some call :=
    ⟨_, List.getElem?_eq_getElem (Nat.lt_of_lt_of_le hi hsound.short)⟩
  have hstep : ∀ e : BatchEvent, e.call? = some i → s.step e = s.callStep i call stage e :=
    fun e he => step_of_call hstage hcall he
  cases stage with
  | preflight =>
    refine ⟨.decide i false .unknown, rfl, ?_⟩
    rw [hstep _ rfl]
    simp only [callStep]
    split <;> rfl
  | prepared =>
    refine ⟨.execute i, rfl, ?_⟩
    rw [hstep _ rfl, callStep, if_neg (by simpa using hready rfl)]
    rfl
  | executing => exact ⟨.settle i (.value ""), rfl, by rw [hstep _ rfl]; rfl⟩
  | executed result => exact ⟨.finish i (.ok result), rfl, by rw [hstep _ rfl]; rfl⟩
  | ending result => exact ⟨.complete i false, rfl, by rw [hstep _ rfl]; rfl⟩
  | completed result => cases hundone

theorem exists_step (hsound : Sound s) (h : s.done = false) : ∃ e, e.isUpdate = false ∧ (s.step e).isSome := by
  by_cases hbusy : ∃ (i : ℕ) (stage : CallStage), s.stages[i]? = some stage ∧ stage.completed? = none ∧
      (stage = .prepared → s.mode = .parallel → s.gathered = true)
  · obtain ⟨i, stage, hstage, hundone, hready⟩ := hbusy
    exact exists_callStep hsound hstage hundone hready
  -- every call is done, or waits for the others to be prepared
  have hwaits : ∀ stage ∈ s.stages,
      stage.completed?.isSome ∨ stage = .prepared ∧ s.mode = .parallel ∧ s.gathered = false := by
    intro stage hmem
    obtain ⟨i, hi⟩ := List.mem_iff_getElem?.mp hmem
    by_contra hnot
    refine hbusy ⟨i, stage, hi, ?_, fun hprepared hmode => ?_⟩
    · simpa using fun hsome => hnot (.inl hsome)
    · by_contra hg
      exact hnot (.inr ⟨hprepared, hmode, by simpa using hg⟩)
  have hhead : s.atHead = true := List.all_eq_true.mpr fun stage hmem => by
    obtain hdone | ⟨rfl, hmode, -⟩ := hwaits stage hmem
    · simp [hdone]
    · simp [hmode]
  by_cases hover : s.stopped = true ∨ s.stages.length = s.calls.length
  · have hloop : s.loopOver = true := by simpa [loopOver, hhead] using hover
    by_cases hgather : s.mode = .parallel ∧ s.gathered = false
    · exact ⟨.gather, rfl, by rw [step, if_pos ⟨hgather.1, hgather.2, hloop⟩]; rfl⟩
    · have hall : s.stages.all (fun stage => stage.completed?.isSome) = true := List.all_eq_true.mpr fun stage hmem =>
        (hwaits stage hmem).resolve_right fun hwait => hgather hwait.2
      have hdone : s.done = true := by
        simp only [done, hloop, hall, Bool.and_true, Bool.true_and]
        simpa [imp_iff_not_or] using hgather
      simp [hdone] at h
  · obtain ⟨hgoing, hmore⟩ := not_or.mp hover
    have hshort := hsound.short
    refine ⟨.start, rfl, ?_⟩
    rw [step, if_pos ⟨hhead, by simpa using hgoing, by omega⟩]
    rfl

/-! ## The guarantees -/

/-- How many of the events are not reports. -/
def steps (es : List BatchEvent) : ℕ := es.countP fun e => !e.isUpdate

theorem left_of_run (hrun : Transition.run step s es = some s') : s'.left + steps es ≤ s.left := by
  induction es generalizing s with
  | nil =>
    cases hrun
    exact le_rfl
  | cons e es ih =>
    obtain ⟨s₁, hfirst, hrest⟩ := Transition.run_cons.mp hrun
    have hstep := left_of_step hfirst
    have htail := ih hrest
    rw [steps, List.countP_cons]
    rw [steps] at htail
    cases he : e.isUpdate <;> simp_all <;> omega

/-- What a batch guarantees, in every state that it comes to: it goes on until
every call is done, in so many steps but for reports; and what it returns is
`Faithful`, for all of the calls unless the signal was aborted. -/
theorem guarantees_of_run {calls : List ToolCallBlock} {mode : BatchMode} (hrun : run calls mode es = some s) :
    (s.done = false → ∃ e, e.isUpdate = false ∧ (s.step e).isSome) ∧
    steps es ≤ 6 * calls.length + 1 ∧
    ∀ outcome, s.outcome? = some outcome →
      Faithful calls mode s.items outcome ∧
      ((∀ e ∈ es, e.aborted = false) → outcome.results.length = calls.length) := by
  have hsound := sound_run hrun
  have hsame : s.calls = calls ∧ s.mode = mode :=
    Transition.run_preserves (fun _ _ _ hx hstep => same_of_step hstep hx) hrun ⟨rfl, rfl⟩
  refine ⟨exists_step hsound, ?_, fun outcome houtcome => ⟨?_, fun hes => ?_⟩⟩
  · have hleft := left_of_run hrun
    simp only [left, List.length_nil, List.map_nil, List.sum_nil, Bool.false_eq_true, if_false] at hleft
    omega
  · rw [← hsame.1, ← hsame.2]
    exact faithful_of_sound hsound houtcome
  · have hgoing := going_of_run hrun hes
    rw [outcome?] at houtcome
    split at houtcome
    case isFalse => cases houtcome
    case isTrue hdone =>
      cases houtcome
      simp only [done, loopOver, hgoing, Bool.false_or, Bool.and_eq_true, beq_iff_eq] at hdone
      have hstages := congrArg List.length (stages_eq hdone.2)
      rw [List.length_map] at hstages
      rw [← hstages, hdone.1.1.2, hsame.1]

/-- Two calls side by side: the second one is over first. -/
theorem guarantees_parallel :
    ∃ outcome : BatchOutcome, outcome.completionOrder = ["b", "a"] ∧
      outcome.results.map ToolResult.toolCallId = ["a", "b"] ∧
      ∃ items, Faithful [⟨"a", "slow", Arguments.adopt [], none, none⟩, ⟨"b", "quick", Arguments.adopt [], none, none⟩]
        .parallel items outcome := by
  have hrun : run [⟨"a", "slow", Arguments.adopt [], none, none⟩, ⟨"b", "quick", Arguments.adopt [], none, none⟩]
      .parallel [.start, .decide 0 false (.decided (.proceed [])), .start, .decide 1 false (.decided (.proceed [])),
        .gather, .execute 0, .execute 1, .settle 1 (.value "done"), .finish 1 (.error "hook"), .complete 1 false,
        .settle 0 (.raised "late"), .finish 0 (.error "hook"), .complete 0 false] = some _ := rfl
  have h := (guarantees_of_run hrun).2.2 _ rfl
  exact ⟨_, rfl, rfl, _, h.1⟩

end Batch

end MinionAgent
