import MinionAgent.AgentLoop.EventGrammar
import MinionAgent.Tools.BatchRuns

/-!
# MinionAgent.AgentLoop.ToolEvents

The events of a batch, read by the machine of a run's events.

* `Executing` — what is under way and what is due, by the stages of the calls;
* `executing_step` — a step of a batch is read, and keeps it.
-/

namespace MinionAgent

/-- The result of a call whose end was shown. -/
def CallStage.ended? : CallStage → Option ToolResult
  | .ending result | .completed result => some result
  | _ => none

/-- A call that is under way, by its id and name. -/
def CallStage.active? (stage : CallStage) (call : ToolCallBlock) : Option (String × String) :=
  if stage.ended?.isSome then none else some (call.id, call.name)

/-- The message that is due for a call. -/
def CallStage.due? (stage : CallStage) : Option ToolResultMessage := stage.ended?.map fun result => result.toMessage 0

namespace Batch

/-- The call with a number, if it is under way. -/
def active? (s : Batch) (i : ℕ) : Option (String × String) := do (← s.stages[i]?).active? (← s.calls[i]?)

/-- The message that is due for the call with a number. -/
def due? (s : Batch) (i : ℕ) : Option ToolResultMessage := do (← s.stages[i]?).due?

variable {s s' : Batch} {e : BatchEvent}

/-- A call's step emits one thing at most. -/
theorem Moved.short {i : ℕ} {call : ToolCallBlock} {stage stage' : CallStage} {news : List BatchItem}
    (h : Moved s i call stage stage' news s') : news.length ≤ 1 := by
  cases h <;> simp

/-- What is taken is a step of the batch. -/
theorem step_of_take {tools : List ToolDefinition} {aborted : Bool} {offered event : BatchEvent}
    (h : s.take tools aborted offered = some (event, s')) : s.step event = some s' := by
  have hstep : ∀ taken, ((s.step taken).bind fun next => some (taken, next)) = some (event, s') →
      s.step event = some s' := by
    intro taken htaken
    obtain ⟨next, hnext, heq⟩ := Option.bind_eq_some_iff.mp htaken
    cases heq
    exact hnext
  cases offered with
  | decide i seen answer =>
    simp only [take] at h
    split at h
    · split at h
      · cases h
      · exact hstep _ h
    · exact hstep _ h
  | _ => exact hstep _ h

/-- The hooks do what the items of a step come to. -/
theorem hooks_of_items {news : List BatchItem} (h : s'.items = s.items ++ news) (hone : news.length ≤ 1)
    (pending : List String) : s.hooks s' pending = news.flatMap (BatchItem.effects s.calls pending) := by
  obtain _ | ⟨item, _ | ⟨item', news⟩⟩ := news
  · simp [hooks, h]
  · simp [hooks, h]
  · simp at hone

/-- The hooks admit no message. -/
theorem admitted_hooks (pending : List String) :
    ((s.hooks s' pending).map LoopAction.own).filterMap LoopAction.admitted? = [] := by
  rw [hooks]
  cases s'.items[s.items.length]? with
  | none => rfl
  | some item =>
    rw [Option.elim_some, BatchItem.effects]
    cases s.calls[item.call]? with
    | none => rfl
    | some call => cases item <;> rfl

end Batch

/-- Where one value of a partial function changes, what it gives changes by
that value. -/
theorem filterMap_perm_of_mem {α β : Type} [DecidableEq α] {xs : List α} (hnodup : xs.Nodup) {x : α} (hx : x ∈ xs)
    {f g : α → Option β} (hothers : ∀ y ∈ xs, y ≠ x → g y = f y) :
    ((f x).toList ++ xs.filterMap g).Perm ((g x).toList ++ xs.filterMap f) := by
  have hsplit := List.perm_cons_erase hx
  have hrest : (xs.erase x).filterMap g = (xs.erase x).filterMap f :=
    List.filterMap_congr fun y hy => hothers y (List.mem_of_mem_erase hy) fun heq => by
      subst heq
      exact (List.Nodup.not_mem_erase hnodup) hy
  have hcons : ∀ h : α → Option β, (x :: xs.erase x).filterMap h = (h x).toList ++ (xs.erase x).filterMap h := by
    intro h
    rw [List.filterMap_cons]
    cases h x <;> rfl
  calc
    List.Perm ((f x).toList ++ xs.filterMap g) ((f x).toList ++ ((g x).toList ++ (xs.erase x).filterMap f)) := by
      rw [← hrest, ← hcons g]
      exact (hsplit.filterMap g).append_left _
    List.Perm _ ((g x).toList ++ ((f x).toList ++ (xs.erase x).filterMap f)) := List.perm_append_comm_assoc _ _ _
    List.Perm _ ((g x).toList ++ xs.filterMap f) := by
      rw [← hcons f]
      exact (hsplit.filterMap f).symm.append_left _

/-- A batch of a reply, and what a listener has read of it. -/
structure Executing (reply : AssistantMessage) (batch : Batch) (active : List (String × String))
    (due : List ToolResultMessage) : Prop where
  calls : batch.calls = reply.toolCalls
  succeeded : reply.failed = false
  sound : batch.Sound
  active : active.Perm ((List.range batch.stages.length).filterMap batch.active?)
  due : due.Perm ((List.range batch.stages.length).filterMap batch.due?)

namespace Executing

variable {reply : AssistantMessage} {s s' : Batch} {active active' : List (String × String)}
  {due due' : List ToolResultMessage} {i : ℕ} {call : ToolCallBlock} {stage stage' : CallStage} {news : List BatchItem}

/-- A call whose end was not shown is under way. -/
theorem mem_active (h : Executing reply s active due) (hthere : s.stages[i]? = some stage)
    (hcalled : s.calls[i]? = some call) (hstage : stage.ended? = none) : (call.id, call.name) ∈ active := by
  refine h.active.mem_iff.mpr (List.mem_filterMap.mpr ⟨i, ?_, ?_⟩)
  · exact List.mem_range.mpr (List.getElem?_eq_some_iff.mp hthere).1
  · simp [Batch.active?, hthere, hcalled, CallStage.active?, hstage]

/-- What a call's step changes. -/
theorem moved (h : Executing reply s active due) (hthere : s.stages[i]? = some stage)
    (hcalled : s.calls[i]? = some call) (hmoved : Batch.Moved s i call stage stage' news s')
    (hactive : ((stage.active? call).toList ++ active').Perm ((stage'.active? call).toList ++ active))
    (hdue : (stage.due?.toList ++ due').Perm (stage'.due?.toList ++ due)) : Executing reply s' active' due' := by
  obtain ⟨hcalls, -, -, hstages, -⟩ := hmoved.changes
  have hi := (List.getElem?_eq_some_iff.mp hthere).1
  have hothers : ∀ j, j ≠ i → s'.stages[j]? = s.stages[j]? := fun j hj => by
    rw [hstages, List.getElem?_set_ne (Ne.symm hj)]
  have hthere' : s'.stages[i]? = some stage' := by rw [hstages, List.getElem?_set_self hi]
  have hlength : s'.stages.length = s.stages.length := by rw [hstages, List.length_set]
  have hnodup := List.nodup_range (n := s.stages.length)
  have hmem := List.mem_range.mpr hi
  refine ⟨hcalls.trans h.calls, h.succeeded, Batch.sound_moved h.sound hthere hcalled hmoved, ?_, ?_⟩
  · have htable := filterMap_perm_of_mem hnodup hmem (f := s.active?) (g := s'.active?) fun j _ hj => by
      simp only [Batch.active?, hothers j hj, hcalls]
    simp only [Batch.active?, hthere, hthere', hcalls, hcalled, Option.bind_eq_bind, Option.bind_some] at htable
    rw [hlength]
    exact (List.perm_append_left_iff _).mp (hactive.trans ((h.active.append_left _).trans htable.symm))
  · have htable := filterMap_perm_of_mem hnodup hmem (f := s.due?) (g := s'.due?) fun j _ hj => by
      simp only [Batch.due?, hothers j hj]
    simp only [Batch.due?, hthere, hthere', Option.bind_eq_bind, Option.bind_some] at htable
    rw [hlength]
    exact (List.perm_append_left_iff _).mp (hdue.trans ((h.due.append_left _).trans htable.symm))

/-- A call that is started joins those under way. -/
theorem started (h : Executing reply s active due) (hhead : s.atHead = true) (hgoing : s.stopped = false)
    (hcalled : s.calls[s.stages.length]? = some call) :
    Executing reply { s with stages := s.stages ++ [.preflight], items := s.items ++ [.started s.stages.length] }
      (active ++ [(call.id, call.name)]) due := by
  have hmore := (List.getElem?_eq_some_iff.mp hcalled).1
  have hold : ∀ j ∈ List.range s.stages.length, (s.stages ++ [CallStage.preflight])[j]? = s.stages[j]? :=
    fun j hj => List.getElem?_append_left (List.mem_range.mp hj)
  refine ⟨h.calls, h.succeeded, Batch.sound_started h.sound hhead hgoing hmore, ?_, ?_⟩
  · rw [List.length_append, List.length_singleton, List.range_succ, List.filterMap_append]
    refine List.Perm.append (h.active.trans (.of_eq (List.filterMap_congr fun j hj => ?_))) (.of_eq ?_)
    · simp only [Batch.active?, hold j hj]
    · simp [Batch.active?, hcalled, CallStage.active?, CallStage.ended?]
  · rw [List.length_append, List.length_singleton, List.range_succ, List.filterMap_append]
    refine (h.due.trans (.of_eq (List.filterMap_congr fun j hj => ?_))).trans (.of_eq (List.append_nil _).symm) |>.trans
      (List.Perm.append (.refl _) (.of_eq ?_))
    · simp only [Batch.due?, hold j hj]
    · simp [Batch.due?, CallStage.due?, CallStage.ended?]

end Executing

/-- A listener that has read what a batch showed. -/
def actingOn (reply : AssistantMessage) (s : Batch) (active : List (String × String)) (due : List ToolResultMessage)
    (messages : List Message) : Nesting where
  phase := .acting reply s.stages.length active due []
  messages := messages

/-- What a call's step shows is read. -/
theorem executing_moved {reply : AssistantMessage} {s s' : Batch} {active : List (String × String)}
    {due : List ToolResultMessage} {i : ℕ} {call : ToolCallBlock} {stage stage' : CallStage} {news : List BatchItem}
    (h : Executing reply s active due) (hthere : s.stages[i]? = some stage) (hcalled : s.calls[i]? = some call)
    (hmoved : Batch.Moved s i call stage stage' news s') (pending : List String) (messages : List Message) :
    ∃ active' due', Executing reply s' active' due' ∧
      Transition.run Nesting.step (actingOn reply s active due messages)
        (shown ((news.flatMap (BatchItem.effects s.calls pending)).map .own)) =
        some (actingOn reply s' active' due' messages) := by
  have hlength : s'.stages.length = s.stages.length := by
    obtain ⟨-, -, -, hstages, -⟩ := hmoved.changes
    rw [hstages, List.length_set]
  have hresult := hmoved.result_about (h.sound.result i stage hthere call hcalled)
  have hcall : call ∈ reply.toolCalls := h.calls ▸ List.mem_of_getElem? hcalled
  have hsilent : stage.ended? = stage'.ended? → Executing reply s' active due := fun hsame =>
    h.moved hthere hcalled hmoved (.of_eq (by simp only [CallStage.active?, hsame]))
      (.of_eq (by simp only [CallStage.due?, hsame]))
  -- the call's end is shown
  have hended : ∀ result, stage.ended? = none → stage' = .ending result → news = [.ended i result] →
      ∃ active' due', Executing reply s' active' due' ∧
        Transition.run Nesting.step (actingOn reply s active due messages)
          (shown ((news.flatMap (BatchItem.effects s.calls pending)).map .own)) =
          some (actingOn reply s' active' due' messages) := by
    intro result hstage hstage' hnews
    subst hstage' hnews
    have hmem := h.mem_active hthere hcalled hstage
    have habout := hresult result rfl
    refine ⟨active.erase (call.id, call.name), due ++ [result.toMessage 0], ?_, ?_⟩
    · have hactive : stage.active? call = some (call.id, call.name) := by simp [CallStage.active?, hstage]
      have hdue : stage.due? = none := by simp [CallStage.due?, hstage]
      refine h.moved hthere hcalled hmoved ?_ ?_
      · rw [hactive]
        exact (List.perm_cons_erase hmem).symm
      · rw [hdue]
        exact List.perm_append_singleton _ _
    · simp [BatchItem.effects, BatchItem.call, hcalled, shown_cons, LoopAction.shown?, Transition.run, Nesting.step,
        actingOn, hmem, habout.toolCallId, habout.toolName, hlength]
  cases hmoved with
  | immediate result about => exact hended result rfl rfl rfl
  | finish result result' about => exact hended result' rfl rfl rfl
  | prepared stopped lengthStop =>
    exact ⟨active, due, hsilent rfl, by simp [actingOn, Batch.enter]⟩
  | execute ready =>
    refine ⟨active, due, hsilent rfl, ?_⟩
    simp [BatchItem.effects, BatchItem.call, hcalled, actingOn, hlength]
  | update report =>
    refine ⟨active, due, hsilent rfl, ?_⟩
    have hmem := h.mem_active hthere hcalled rfl
    have hexecution : ∃ other ∈ reply.toolCalls, other.execution = (call.id, call.name, call.arguments.value) :=
      ⟨call, hcall, by simp [ToolCallBlock.execution]⟩
    simp [BatchItem.effects, BatchItem.call, hcalled, shown_cons, LoopAction.shown?, Transition.run, Nesting.step,
      actingOn, hmem, hlength, hexecution]
  | settle result about =>
    exact ⟨active, due, hsilent rfl, by simp [actingOn, hlength]⟩
  | complete result stopped =>
    refine ⟨active, due, hsilent rfl, ?_⟩
    simp [BatchItem.effects, BatchItem.call, hcalled, actingOn, hlength]

/-- A step of a batch is read. -/
theorem executing_step {reply : AssistantMessage} {s s' : Batch} {active : List (String × String)}
    {due : List ToolResultMessage} {event : BatchEvent} (h : Executing reply s active due)
    (hstep : s.step event = some s') (pending : List String) (messages : List Message) :
    ∃ active' due', Executing reply s' active' due' ∧
      Transition.run Nesting.step (actingOn reply s active due messages)
        (shown ((s.hooks s' pending).map .own)) = some (actingOn reply s' active' due' messages) := by
  cases Batch.stepped hstep with
  | start head going more =>
    obtain ⟨call, hcalled⟩ : ∃ call, s.calls[s.stages.length]? = some call := ⟨_, List.getElem?_eq_getElem more⟩
    refine ⟨_, _, h.started head going hcalled, ?_⟩
    rw [Batch.hooks_of_items rfl le_rfl]
    have hcalled' : reply.toolCalls[s.stages.length]? = some call := h.calls ▸ hcalled
    simp [BatchItem.effects, BatchItem.call, hcalled, shown_cons, LoopAction.shown?, Transition.run, Nesting.step,
      actingOn, h.succeeded, hcalled', ToolCallBlock.execution]
  | gather mode fresh loop =>
    refine ⟨active, due, ⟨h.calls, h.succeeded, Batch.sound_gathered h.sound mode loop, h.active, h.due⟩, ?_⟩
    have hitems : ({ s with gathered := true } : Batch).items = s.items ++ [] := (List.append_nil _).symm
    rw [Batch.hooks_of_items hitems (Nat.zero_le _)]
    rfl
  | call there called moved =>
    rw [Batch.hooks_of_items moved.changes.2.2.2.2 moved.short]
    exact executing_moved h there called moved pending messages

/-! ## Results -/

/-- Reading a list by its positions. -/
theorem filterMap_range_getElem? {α β : Type} (l : List α) (g : α → Option β) :
    ((List.range l.length).filterMap fun i => l[i]?.bind g) = l.filterMap g := by
  induction l using List.reverseRecOn with
  | nil => rfl
  | append_singleton l a ih =>
    rw [List.length_append, List.length_singleton, List.range_succ, List.filterMap_append, List.filterMap_append, ← ih]
    refine congr_arg₂ (· ++ ·) (List.filterMap_congr fun i hi => ?_) ?_
    · rw [List.getElem?_append_left (List.mem_range.mp hi)]
    · simp [List.filterMap_cons]

/-- The results that are to be reported after so many, and what is due. -/
structure Reporting (reply : AssistantMessage) (reported : ℕ) (rest : List ToolResult) (due : List ToolResultMessage) :
    Prop where
  succeeded : reply.failed = false
  due : due.Perm (rest.map fun result => result.toMessage 0)
  calls : ∀ (j : ℕ) (result : ToolResult), rest[j]? = some result →
    ∃ call, reply.toolCalls[reported + j]? = some call ∧ call.id = result.toolCallId

/-- A batch that has an outcome owes its results, and nothing else. -/
theorem Executing.over {reply : AssistantMessage} {s : Batch} {active : List (String × String)}
    {due : List ToolResultMessage} {outcome : BatchOutcome} (h : Executing reply s active due)
    (houtcome : s.outcome? = some outcome) :
    active = [] ∧ s.stages.length = outcome.results.length ∧ Reporting reply 0 outcome.results due := by
  have hfaithful := Batch.faithful_of_sound h.sound houtcome
  rw [Batch.outcome?] at houtcome
  split at houtcome
  case isFalse => cases houtcome
  case isTrue hdone =>
    cases houtcome
    rw [Batch.done, Bool.and_eq_true] at hdone
    have hstages := Batch.stages_eq hdone.2
    have hlength : s.stages.length = s.results.length := by rw [hstages, List.length_map]
    refine ⟨?_, hlength, h.succeeded, ?_, fun j result hj => ?_⟩
    · refine List.perm_nil.mp (h.active.trans (.of_eq (List.filterMap_eq_nil_iff.mpr fun i _ => ?_)))
      rw [Batch.active?, hstages, List.getElem?_map]
      cases s.results[i]? <;> cases s.calls[i]? <;> rfl
    · refine h.due.trans (.of_eq ?_)
      have hread := filterMap_range_getElem? s.stages CallStage.due?
      refine hread.trans ?_
      rw [hstages, List.filterMap_map]
      exact congrFun List.filterMap_eq_map s.results
    · obtain ⟨call, hcall, habout, -⟩ := hfaithful.results j result hj
      rw [Nat.zero_add, ← h.calls]
      exact ⟨call, hcall, habout.toolCallId.symm⟩

/-- A result that is reported was due. -/
theorem Reporting.mem_due {reply : AssistantMessage} {reported : ℕ} {result : ToolResult} {rest : List ToolResult}
    {due : List ToolResultMessage} (h : Reporting reply reported (result :: rest) due) : result.toMessage 0 ∈ due :=
  h.due.mem_iff.mpr List.mem_cons_self

theorem Reporting.reported {reply : AssistantMessage} {reported : ℕ} {result : ToolResult} {rest : List ToolResult}
    {due : List ToolResultMessage} (h : Reporting reply reported (result :: rest) due) :
    Reporting reply (reported + 1) rest (due.erase (result.toMessage 0)) where
  succeeded := h.succeeded
  due := by simpa using h.due.erase (result.toMessage 0)
  calls j next hj := by
    rw [Nat.add_right_comm, Nat.add_assoc]
    exact h.calls (j + 1) next (by simpa using hj)

end MinionAgent
