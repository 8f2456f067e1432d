import MinionAgent.Llm.Answered

/-!
# MinionAgent.Llm.Pairing

When transformation keeps tool calls and their results together.

The ID map is global to the history, while a reply's calls are rewritten only
for another model.  The two sides of a pair agree exactly when the result
finds under its call's ID what the call was rewritten to
(`resultId_eq_newId_iff`):

* an ID that is rewritten must not become empty, since an empty binding does
  not rewrite the result;
* an ID that is kept must not be one an earlier reply has rewritten last to
  something non-empty.

`pairing_kept_iff` settles the first of these for the histories that meet the
second.
-/

namespace MinionAgent.Transformation

open Obligation

/-! ## Replies with their surroundings -/

/-- `P` holds of every reply that is kept, with the messages before and after
it. -/
def ForEachKeptReply (P : List Message → AssistantMessage → List Message → Prop) :
    List Message → List Message → Prop
  | _, [] => True
  | earlier, m :: later =>
    (∀ a ∈ m.assistant?, a.failed = false → P earlier a later) ∧ ForEachKeptReply P (earlier ++ [m]) later

instance ForEachKeptReply.instDecidable (P : List Message → AssistantMessage → List Message → Prop)
    [∀ earlier a later, Decidable (P earlier a later)] (earlier messages : List Message) :
    Decidable (ForEachKeptReply P earlier messages) :=
  match messages with
  | [] => isTrue trivial
  | m :: later =>
    have := ForEachKeptReply.instDecidable P (earlier ++ [m]) later
    inferInstanceAs (Decidable (_ ∧ _))

theorem forEachKeptReply_iff (P : List Message → AssistantMessage → List Message → Prop)
    (earlier messages : List Message) :
    ForEachKeptReply P earlier messages ↔
      ∀ before a after, messages = before ++ .assistant a :: after → a.failed = false →
        P (earlier ++ before) a after := by
  induction messages generalizing earlier with
  | nil => simp [ForEachKeptReply]
  | cons m later ih =>
    rw [ForEachKeptReply, ih]
    constructor
    · rintro ⟨hhead, htail⟩ before a after heq hfailed
      cases before with
      | nil =>
        obtain ⟨rfl, rfl⟩ := List.cons_eq_cons.mp heq
        simpa using hhead a rfl hfailed
      | cons n before =>
        obtain ⟨rfl, rfl⟩ := List.cons_eq_cons.mp heq
        simpa using htail before a after rfl hfailed
    · intro h
      refine ⟨fun a ha hfailed => ?_, fun before a after heq hfailed => ?_⟩
      · cases m with
        | assistant b =>
          obtain rfl : b = a := by simpa using ha
          simpa using h [] b later rfl hfailed
        | user u => simp at ha
        | toolResult r => simp at ha
      · simpa using h (m :: before) a after (by rw [heq]; rfl) hfailed

/-! ## Histories in which every call is answered -/

/-- Every call of a kept reply is answered by exactly one result before the
next user or assistant message. -/
def AnsweredOnce (history : List Message) : Prop :=
  ForEachKeptReply
    (fun _ a later => ∀ call ∈ a.toolCalls,
      ((later.takeWhile Message.isToolResult).filterMap Message.toolResult?).countP
        (fun r => r.toolCallId == call.id) = 1) [] history

/-- Call IDs are distinct within each reply. -/
def DistinctCalls (history : List Message) : Prop :=
  ∀ m ∈ history, ∀ a ∈ m.assistant?, (a.toolCalls.map ToolCallBlock.id).Nodup

/-- The call IDs of a history. -/
def callIds (history : List Message) : List String :=
  (history.filterMap Message.assistant?).flatMap fun a => a.toolCalls.map ToolCallBlock.id

/-- The normalizer gives distinct IDs of the history distinct IDs. -/
def NormalizerInjective (target : TargetModel) (normalize : Option NormalizeToolCallId)
    (history : List Message) : Prop :=
  ∀ f ∈ normalize, ∀ m ∈ history, ∀ a ∈ m.assistant?, ∀ i ∈ callIds history, ∀ j ∈ callIds history,
    f i target a = f j target a → i = j

/-- What a history has to be for its pairs to be spoken of. -/
structure WellPaired (target : TargetModel) (normalize : Option NormalizeToolCallId)
    (history : List Message) : Prop where
  answeredOnce : AnsweredOnce history
  distinctCalls : DistinctCalls history
  injective : NormalizerInjective target normalize history

/-- The place of a message of the input among the kept ones. -/
def keptIndex (before : List Message) : Nat := (before.filter fun m => !m.failed).length

/-- The pairs of the input are the pairs of the output: nothing is inserted,
and where a result answers a call of a kept reply, the result in its place
carries the ID of the call in that call's place, and of no other call. -/
structure KeepsPairing (target : TargetModel) (input output : List Message) : Prop where
  nothingInserted : List.Forall₂ (SurvivesAs target) (input.filter fun m => !m.failed) output
  paired : ∀ (before : List Message) (a : AssistantMessage) (between : List Message) (r : ToolResultMessage)
    (after : List Message) (k : Nat) (call : ToolCallBlock),
    input = before ++ .assistant a :: (between ++ .toolResult r :: after) → a.failed = false →
    (∀ m ∈ between, m.isToolResult = true) → a.toolCalls[k]? = some call → r.toolCallId = call.id →
    ∃ (a' : AssistantMessage) (r' : ToolResultMessage) (call' : ToolCallBlock),
      output[keptIndex before]? = some (.assistant a') ∧
      output[keptIndex before + 1 + between.length]? = some (.toolResult r') ∧
      a'.toolCalls[k]? = some call' ∧ r'.toolCallId = call'.id ∧
      ∀ call'' ∈ a'.toolCalls, call''.id = r'.toolCallId → call'' = call'

/-! ## What a reply does to an ID -/

section

variable (target : TargetModel) (normalize : Option NormalizeToolCallId)

/-- What reply `a` rewrites `id` to, if it has a call of that ID and rewrites
it. -/
def rewritingBy (a : AssistantMessage) (id : String) : Option String :=
  if id ∈ a.toolCalls.map ToolCallBlock.id ∧ newId target normalize a id ≠ id then
    some (newId target normalize a id)
  else
    none

/-- What the last of the earlier replies to rewrite `id` rewrote it to. -/
def lastRewriting (earlier : List Message) (id : String) : Option String :=
  earlier.reverse.findSome? fun m => m.assistant?.bind fun a => rewritingBy target normalize a id

/-- No kept reply's call is rewritten to the empty ID. -/
def NoEmptyId (history : List Message) : Prop :=
  ForEachKeptReply
    (fun _ a _ => ∀ call ∈ a.toolCalls, newId target normalize a call.id ≠ call.id →
      newId target normalize a call.id ≠ "") [] history

/-- No kept reply's call keeps an ID that was last rewritten, by an earlier
reply, to a non-empty one. -/
def NoStaleId (history : List Message) : Prop :=
  ForEachKeptReply
    (fun earlier a _ => ∀ call ∈ a.toolCalls, newId target normalize a call.id = call.id →
      ∀ new ∈ lastRewriting target normalize earlier call.id, new = "") [] history

/-- The map the replies of `earlier` leave behind. -/
def idMapAfter (earlier : List Message) : IdMap :=
  earlier.foldl (fun idMap m => (m.assistant?.elim [] (rewritings target normalize)) ++ idMap) []

/-- A graph finds its own values. -/
private theorem lookup_graph (f : String → String) (keys : List String) (id : String) :
    (keys.map fun key => (key, f key)).lookup id = if id ∈ keys then some (f id) else none := by
  induction keys with
  | nil => rfl
  | cons key keys ih =>
    by_cases h : id = key
    · simp [h]
    · have hbeq : (id == key) = false := by simpa using h
      simp [List.lookup_cons, hbeq, ih, h]

theorem lookup_rewritings (a : AssistantMessage) (id : String) :
    (rewritings target normalize a).lookup id = rewritingBy target normalize a id := by
  have hgraph : rewritings target normalize a =
      (((a.toolCalls.filter fun call => newId target normalize a call.id ≠ call.id).map ToolCallBlock.id).reverse).map
        fun key => (key, newId target normalize a key) := by
    simp [rewritings, List.map_reverse, Function.comp_def]
  rw [hgraph, lookup_graph, rewritingBy]
  congr 1
  simp only [List.mem_reverse, List.mem_map, List.mem_filter, decide_eq_true_eq, eq_iff_iff]
  constructor
  · rintro ⟨call, ⟨hcall, hne⟩, rfl⟩
    exact ⟨⟨call, hcall, rfl⟩, hne⟩
  · rintro ⟨⟨call, hcall, rfl⟩, hne⟩
    exact ⟨call, ⟨hcall, hne⟩, rfl⟩

theorem lookup_idMapAfter (earlier : List Message) (id : String) :
    (idMapAfter target normalize earlier).lookup id = lastRewriting target normalize earlier id := by
  induction earlier using List.reverseRecOn with
  | nil => rfl
  | append_singleton earlier m ih =>
    simp only [idMapAfter, lastRewriting, List.foldl_append, List.foldl_cons, List.foldl_nil, List.lookup_append,
      List.reverse_append, List.reverse_cons, List.reverse_nil, List.nil_append, List.singleton_append,
      List.findSome?_cons] at ih ⊢
    rw [ih]
    cases m with
    | assistant a => simp [lookup_rewritings]; cases rewritingBy target normalize a id <;> rfl
    | user u => simp
    | toolResult r => simp

theorem lastRewriting_ne {earlier : List Message} {id new : String}
    (h : lastRewriting target normalize earlier id = some new) : new ≠ id := by
  obtain ⟨m, _, hm⟩ := List.exists_of_findSome?_eq_some h
  obtain ⟨a, _, ha⟩ := Option.bind_eq_some_iff.mp hm
  unfold rewritingBy at ha
  split at ha
  · next hne => cases ha; exact hne.2
  · cases ha

/-- A result finds what its call was rewritten to exactly when the ID neither
becomes empty nor is kept over a stale rewriting. -/
theorem resultId_eq_newId_iff (earlier : List Message) (a : AssistantMessage) {call : ToolCallBlock}
    (hcall : call ∈ a.toolCalls) :
    resultId (rewritings target normalize a ++ idMapAfter target normalize earlier) call.id =
        newId target normalize a call.id ↔
      (newId target normalize a call.id ≠ call.id → newId target normalize a call.id ≠ "") ∧
        (newId target normalize a call.id = call.id →
          ∀ new ∈ lastRewriting target normalize earlier call.id, new = "") := by
  have hmem : call.id ∈ a.toolCalls.map ToolCallBlock.id := List.mem_map.mpr ⟨call, hcall, rfl⟩
  simp only [resultId, List.lookup_append, lookup_rewritings, lookup_idMapAfter, rewritingBy, hmem, true_and]
  by_cases hsame : newId target normalize a call.id = call.id
  · simp only [hsame, ne_eq, not_true_eq_false, if_false, Option.none_or, false_implies, true_and, forall_true_left]
    cases hlast : lastRewriting target normalize earlier call.id with
    | none => simp
    | some new =>
      have hne := lastRewriting_ne target normalize hlast
      by_cases hempty : new = "" <;> simp [hempty, hne]
  · simp only [ne_eq, hsame, not_false_eq_true, if_true, Option.some_or, forall_true_left, false_implies, and_true]
    by_cases hempty : newId target normalize a call.id = ""
    · have hne : call.id ≠ "" := fun h => hsame (hempty.trans h.symm)
      simp [hempty, hne]
    · simp [hempty]

/-! ## The content pass message by message -/

variable (blank : String → Bool)

/-- One round of the content pass. -/
def newMessage (idMap : IdMap) : Message → Message
  | .user m => .user m
  | .toolResult m => .toolResult (newResult idMap m)
  | .assistant m => .assistant (newAssistant blank target normalize m)

theorem isToolResult_newMessage (idMap : IdMap) (m : Message) :
    (newMessage target normalize blank idMap (image target m)).isToolResult = m.isToolResult := by
  cases m with
  | assistant a => simp [newMessage]
  | user u =>
    obtain ⟨v, hv⟩ := exists_image_user target u
    simp [hv, newMessage]
  | toolResult r =>
    obtain ⟨s, hs, -⟩ := exists_image_toolResult target r
    simp [hs, newMessage]

theorem failed_newMessage (idMap : IdMap) (m : Message) :
    (newMessage target normalize blank idMap (image target m)).failed = m.failed := by
  cases m with
  | assistant a => simp only [image_assistant, newMessage]; rfl
  | user u =>
    obtain ⟨v, hv⟩ := exists_image_user target u
    simp [hv, newMessage]
  | toolResult r =>
    obtain ⟨s, hs, -⟩ := exists_image_toolResult target r
    simp [hs, newMessage]

/-- The content of a history behind the messages `earlier`. -/
def contentAfter (earlier messages : List Message) : List Message :=
  contentPass blank target normalize (idMapAfter target normalize earlier) (messages.map (image target))

theorem contentAfter_cons (earlier : List Message) (m : Message) (messages : List Message) :
    contentAfter target normalize blank earlier (m :: messages) =
      newMessage target normalize blank (idMapAfter target normalize earlier) (image target m) ::
        contentAfter target normalize blank (earlier ++ [m]) messages := by
  unfold contentAfter idMapAfter
  cases m with
  | assistant a => simp [contentPass, newMessage]
  | user u =>
    obtain ⟨v, hv⟩ := exists_image_user target u
    simp [hv, contentPass, newMessage]
  | toolResult r =>
    obtain ⟨s, hs, -⟩ := exists_image_toolResult target r
    simp [hs, contentPass, newMessage]

theorem contentAfter_append (earlier messages later : List Message) :
    contentAfter target normalize blank earlier (messages ++ later) =
      contentAfter target normalize blank earlier messages ++
        contentAfter target normalize blank (earlier ++ messages) later := by
  induction messages generalizing earlier with
  | nil => simp [contentAfter, contentPass]
  | cons m messages ih => simp [contentAfter_cons, ih]

/-- Results change no map: up to the next reply each message is rewritten under
the map before it. -/
theorem contentAfter_of_isToolResult (earlier : List Message) {messages : List Message}
    (h : ∀ m ∈ messages, m.isToolResult = true) :
    contentAfter target normalize blank earlier messages =
        messages.map (fun m => newMessage target normalize blank (idMapAfter target normalize earlier)
          (image target m)) ∧
      idMapAfter target normalize (earlier ++ messages) = idMapAfter target normalize earlier := by
  induction messages generalizing earlier with
  | nil => simp [contentAfter, contentPass]
  | cons m messages ih =>
    have hmap : idMapAfter target normalize (earlier ++ [m]) = idMapAfter target normalize earlier := by
      cases m with
      | toolResult r => simp [idMapAfter]
      | user u => simp at h
      | assistant a => simp at h
    obtain ⟨hcontent, hafter⟩ := ih (earlier ++ [m]) fun n hn => h n (by simp [hn])
    rw [contentAfter_cons, hcontent, hmap, List.map_cons]
    refine ⟨rfl, ?_⟩
    rw [← hmap, ← hafter, List.append_assoc, List.singleton_append]

/-- A result in the window behind a reply, with what lies between. -/
theorem exists_split_of_mem_takeWhile {r : ToolResultMessage} {later : List Message}
    (h : .toolResult r ∈ later.takeWhile Message.isToolResult) :
    ∃ between after, later = between ++ .toolResult r :: after ∧ ∀ m ∈ between, m.isToolResult = true := by
  obtain ⟨between, rest, hsplit⟩ := List.append_of_mem h
  refine ⟨between, rest ++ later.dropWhile Message.isToolResult, ?_, fun m hm => ?_⟩
  · conv_lhs => rw [← List.takeWhile_append_dropWhile (p := Message.isToolResult) (l := later), hsplit]
    simp
  · have hall := List.all_takeWhile (p := Message.isToolResult) (l := later)
    exact List.all_eq_true.mp hall m (by simp [hsplit, hm])

/-- The answer to a call of a kept reply. -/
theorem exists_answer {later : List Message} {id : String}
    (h : ((later.takeWhile Message.isToolResult).filterMap Message.toolResult?).countP
      (fun r => r.toolCallId == id) = 1) :
    ∃ r : ToolResultMessage, .toolResult r ∈ later.takeWhile Message.isToolResult ∧ r.toolCallId = id := by
  obtain ⟨r, hr, hid⟩ := List.countP_pos_iff.mp (by rw [h]; exact Nat.one_pos)
  obtain ⟨m, hm, hmr⟩ := List.mem_filterMap.mp hr
  cases m with
  | toolResult s =>
    obtain rfl : s = r := by simpa [Message.toolResult?] using hmr
    exact ⟨s, hm, by simpa using hid⟩
  | user u => simp [Message.toolResult?] at hmr
  | assistant a => simp [Message.toolResult?] at hmr

/-- Where a result answers a call of a kept reply, what the content pass makes
of the three stretches around them, failed replies left out. -/
theorem exists_content_split (before : List Message) (a : AssistantMessage) (between : List Message)
    (r : ToolResultMessage) (after : List Message) (hfailed : a.failed = false)
    (hbetween : ∀ m ∈ between, m.isToolResult = true) :
    ∃ (x y z : List Message) (s : ToolResultMessage),
      (contentAfter target normalize blank [] (before ++ .assistant a :: (between ++ .toolResult r :: after))).filter
          (fun m => !m.failed) =
        x ++ .assistant (newAssistant blank target normalize a) :: (y ++ .toolResult
          (newResult (rewritings target normalize a ++ idMapAfter target normalize before) s) :: z) ∧
      x.length = keptIndex before ∧ y.length = between.length ∧ s.toolCallId = r.toolCallId := by
  have hlength : ∀ earlier messages,
      ((contentAfter target normalize blank earlier messages).filter fun m => !m.failed).length =
        keptIndex messages := by
    intro earlier messages
    induction messages generalizing earlier with
    | nil => rfl
    | cons m messages ih =>
      rw [contentAfter_cons, List.filter_cons, failed_newMessage, keptIndex, List.filter_cons]
      cases m.failed <;> simp [ih, keptIndex]
  have hkeep : ∀ m ∈ between.map (fun m => newMessage target normalize blank
      (idMapAfter target normalize (before ++ [.assistant a])) (image target m)), (!m.failed) = true := by
    intro m hm
    obtain ⟨n, hn, rfl⟩ := List.mem_map.mp hm
    rw [failed_newMessage]
    cases n with
    | toolResult r => rfl
    | user u => exact absurd (hbetween _ hn) (by simp)
    | assistant a => exact absurd (hbetween _ hn) (by simp)
  obtain ⟨hcontent, hmap⟩ := contentAfter_of_isToolResult target normalize blank (before ++ [.assistant a]) hbetween
  have hafter : idMapAfter target normalize (before ++ [.assistant a]) =
      rewritings target normalize a ++ idMapAfter target normalize before := by simp [idMapAfter]
  obtain ⟨s, hs, hid⟩ := exists_image_toolResult target r
  have ha : (newAssistant blank target normalize a).failed = false := hfailed
  refine ⟨_, between.map fun m => newMessage target normalize blank
      (idMapAfter target normalize (before ++ [.assistant a])) (image target m),
    (contentAfter target normalize blank (before ++ [.assistant a] ++ between ++ [.toolResult r]) after).filter
      fun m => !m.failed, s, ?_, hlength [] before, List.length_map _, hid⟩
  have hreply : newMessage target normalize blank (idMapAfter target normalize before) (image target (.assistant a)) =
      .assistant (newAssistant blank target normalize a) := by rw [image_assistant]; rfl
  have hresult : newMessage target normalize blank (idMapAfter target normalize (before ++ [.assistant a]))
    (.toolResult s) =
      .toolResult (newResult (rewritings target normalize a ++ idMapAfter target normalize before) s) := by
    rw [hafter]; rfl
  rw [contentAfter_append, contentAfter_cons, contentAfter_append, contentAfter_cons, List.nil_append, hcontent, hmap,
    hs, hreply, hresult, List.filter_append, List.filter_cons_of_pos (by simpa using ha), List.filter_append,
    List.filter_eq_self.mpr hkeep, List.filter_cons_of_pos rfl]

/-! ## When the pairs are kept -/

/-- Every result finds what its call was rewritten to. -/
def Consistent (earlier messages : List Message) : Prop :=
  ForEachKeptReply
    (fun earlier a _ => ∀ call ∈ a.toolCalls,
      resultId (rewritings target normalize a ++ idMapAfter target normalize earlier) call.id =
        newId target normalize a call.id) earlier messages

theorem consistent_iff {history : List Message} (hstale : NoStaleId target normalize history) :
    Consistent target normalize [] history ↔ NoEmptyId target normalize history := by
  simp only [Consistent, NoEmptyId, NoStaleId, forEachKeptReply_iff, List.nil_append] at hstale ⊢
  constructor
  · intro h before a after hsplit hfailed call hcall
    exact ((resultId_eq_newId_iff target normalize before a hcall).mp (h before a after hsplit hfailed call hcall)).1
  · intro h before a after hsplit hfailed call hcall
    exact (resultId_eq_newId_iff target normalize before a hcall).mpr
      ⟨h before a after hsplit hfailed call hcall, hstale before a after hsplit hfailed call hcall⟩

/-- Consistent IDs leave no call of an answered history open. -/
theorem closed_contentAfter (earlier messages : List Message)
    (hanswered : ForEachKeptReply
      (fun _ a later => ∀ call ∈ a.toolCalls,
        ((later.takeWhile Message.isToolResult).filterMap Message.toolResult?).countP
          (fun r => r.toolCallId == call.id) = 1) earlier messages)
    (hconsistent : Consistent target normalize earlier messages) :
    Closed classify ToolCallBlock.id (contentAfter target normalize blank earlier messages) := by
  induction messages generalizing earlier with
  | nil => exact closed_nil _ _
  | cons m later ih =>
    rw [contentAfter_cons, closed_cons]
    refine ⟨?_, ih _ hanswered.2 hconsistent.2⟩
    intro call' hcall'
    cases m with
    | user u =>
      obtain ⟨v, hv⟩ := exists_image_user target u
      simp [hv, newMessage, classify, Event.raised] at hcall'
    | toolResult r =>
      obtain ⟨s, hs, -⟩ := exists_image_toolResult target r
      simp [hs, newMessage, classify, Event.raised] at hcall'
    | assistant a =>
      cases hfailed : a.failed with
      | true =>
        have ha : (newAssistant blank target normalize a).failed = true := hfailed
        simp [newMessage, classify, ha, Event.raised] at hcall'
      | false =>
        have ha : (newAssistant blank target normalize a).failed = false := hfailed
        simp only [image_assistant, newMessage, classify, ha, Bool.false_eq_true, if_false, Event.raised,
          toolCalls_newAssistant, List.mem_map] at hcall'
        obtain ⟨call, hcall, rfl⟩ := hcall'
        obtain ⟨r, hr, hid⟩ := exists_answer (hanswered.1 a rfl hfailed call hcall)
        obtain ⟨between, after, rfl, hbetween⟩ := exists_split_of_mem_takeWhile hr
        obtain ⟨s, hs, hsid⟩ := exists_image_toolResult target r
        obtain ⟨hcontent, hmap⟩ :=
          contentAfter_of_isToolResult target normalize blank (earlier ++ [.assistant a]) hbetween
        have hafter : idMapAfter target normalize (earlier ++ [.assistant a]) =
            rewritings target normalize a ++ idMapAfter target normalize earlier := by simp [idMapAfter]
        have hmeeting : ∀ m ∈ between.map (fun m => newMessage target normalize blank
            (idMapAfter target normalize (earlier ++ [.assistant a])) (image target m)),
            (classify m).isMeeting = true := by
          intro m hm
          obtain ⟨n, hn, rfl⟩ := List.mem_map.mp hm
          rw [isMeeting_classify, isToolResult_newMessage, hbetween n hn]
        rw [contentAfter_append, contentAfter_cons, hcontent, hmap, hs, hafter]
        rw [hafter] at hmeeting
        refine ⟨.toolResult (newResult (rewritings target normalize a ++ idMapAfter target normalize earlier) s),
          ?_, ?_⟩
        · rw [List.takeWhile_append_of_pos hmeeting]
          simp [newMessage, classify, Event.isMeeting]
        · have hresult := hconsistent.1 a rfl hfailed call hcall
          simp only [classify, newResult, hsid, hid, hresult]
          rfl

/-- New IDs are distinct where old ones are. -/
theorem newId_inj {history : List Message} (hinj : NormalizerInjective target normalize history)
    {a : AssistantMessage} (ha : .assistant a ∈ history) {i j : String}
    (hi : i ∈ a.toolCalls.map ToolCallBlock.id) (hj : j ∈ a.toolCalls.map ToolCallBlock.id)
    (h : newId target normalize a i = newId target normalize a j) : i = j := by
  have hid : ∀ k ∈ a.toolCalls.map ToolCallBlock.id, k ∈ callIds history := fun k hk =>
    List.mem_flatMap.mpr ⟨a, List.mem_filterMap.mpr ⟨_, ha, rfl⟩, hk⟩
  unfold newId at h
  cases hsame : isSameModel a target with
  | true => simpa [hsame] using h
  | false =>
    cases hnormalize : normalize with
    | none => simpa [hsame, hnormalize] using h
    | some f =>
      simp only [hsame, hnormalize] at h
      exact hinj f hnormalize _ ha a rfl i (hid i hi) j (hid j hj) h

/-- The pairs of a well-paired history without stale IDs are kept exactly when
no ID becomes empty, whatever counts as blank. -/
theorem keepsPairing_transform_iff (nowMs : Nat → Int) (history : List Message)
    (hpaired : WellPaired target normalize history) (hstale : NoStaleId target normalize history) :
    KeepsPairing target history (transform blank nowMs target normalize history) ↔
      NoEmptyId target normalize history := by
  let content := contentAfter target normalize blank [] history
  have htransform : transform blank nowMs target normalize history = orphanPass nowMs content := by
    rw [transform, imagePass_eq_map]
    rfl
  have hkept : List.Forall₂ (SurvivesAs target) (history.filter fun m => !m.failed)
      (content.filter fun m => !m.failed) := by
    have hsurvive := forall₂_contentPass blank target normalize history []
    rw [imagePass_eq_map] at hsurvive
    exact List.rel_filter (fun m n h => by simp [h.failed_eq]) hsurvive
  have hpadded := padded_orphanPass nowMs content
  have hanswered := hpaired.answeredOnce
  rw [← consistent_iff target normalize hstale, htransform]
  constructor
  · rintro ⟨hnothing, hpairs⟩
    have hout : content.filter (fun m => !m.failed) = orphanPass nowMs content :=
      hpadded.sublist.eq_of_length (hkept.length_eq.symm.trans hnothing.length_eq)
    rw [Consistent, forEachKeptReply_iff]
    intro before a later hsplit hfailed call hcall
    rw [AnsweredOnce, forEachKeptReply_iff] at hanswered
    obtain ⟨r, hr, hid⟩ := exists_answer (hanswered before a later hsplit hfailed call hcall)
    obtain ⟨between, after, rfl, hbetween⟩ := exists_split_of_mem_takeWhile hr
    obtain ⟨k, hk⟩ := List.mem_iff_getElem?.mp hcall
    obtain ⟨a', r', call', ha', hr', hcall', hpair, -⟩ :=
      hpairs before a between r after k call hsplit hfailed hbetween hk hid
    obtain ⟨x, y, z, s, hcontent, hx, hy, hs⟩ :=
      exists_content_split target normalize blank before a between r after hfailed hbetween
    have heq : orphanPass nowMs content = x ++ .assistant (newAssistant blank target normalize a) :: (y ++ .toolResult
        (newResult (rewritings target normalize a ++ idMapAfter target normalize before) s) :: z) := by
      rw [← hout, ← hcontent, ← hsplit]
    rw [heq, ← hx] at ha' hr'
    rw [← hy] at hr'
    obtain rfl : newAssistant blank target normalize a = a' := by simpa using ha'
    obtain rfl : newResult (rewritings target normalize a ++ idMapAfter target normalize before) s = r' := by
      simpa [Nat.add_assoc, Nat.add_comm 1] using hr'
    rw [toolCalls_newAssistant, List.getElem?_map, hk, Option.map_some, Option.some.injEq] at hcall'
    subst hcall'
    simpa [newResult, hs, hid, newCall] using hpair
  · intro hconsistent
    have hclosed := closed_contentAfter target normalize blank [] history hanswered hconsistent
    have hout : orphanPass nowMs content = content.filter fun m => !m.failed := by
      rw [orphanPass, discharge_of_closed content 0 [] [] hclosed (by simp [unmet])]
      simp only [isDiscarded_classify]
    refine ⟨hout ▸ hkept, ?_⟩
    intro before a between r after k call hsplit hfailed hbetween hk hid
    obtain ⟨x, y, z, s, hcontent, hx, hy, hs⟩ :=
      exists_content_split target normalize blank before a between r after hfailed hbetween
    have hcall : call ∈ a.toolCalls := List.mem_of_getElem? hk
    have hmem : .assistant a ∈ history := by simp [hsplit]
    rw [Consistent, forEachKeptReply_iff] at hconsistent
    have hresult := hconsistent before a _ hsplit hfailed call hcall
    have heq : orphanPass nowMs content = x ++ .assistant (newAssistant blank target normalize a) :: (y ++ .toolResult
        (newResult (rewritings target normalize a ++ idMapAfter target normalize before) s) :: z) := by
      rw [hout, ← hcontent, ← hsplit]
    refine ⟨newAssistant blank target normalize a,
      newResult (rewritings target normalize a ++ idMapAfter target normalize before) s,
      newCall target normalize a call, ?_, ?_, ?_, ?_, ?_⟩
    · rw [heq, ← hx]
      simp
    · rw [heq, ← hx, ← hy]
      simp [Nat.add_assoc, Nat.add_comm 1]
    · rw [toolCalls_newAssistant, List.getElem?_map, hk, Option.map_some]
    · simpa [newResult, hs, hid, newCall] using hresult
    · intro call'' hcall'' hsame
      rw [toolCalls_newAssistant] at hcall''
      obtain ⟨c, hc, rfl⟩ := List.mem_map.mp hcall''
      have hids : newId target normalize a c.id = newId target normalize a call.id := by
        simp only [newResult, newCall, hs, hid] at hsame
        exact hsame.trans hresult
      have heqid := newId_inj target normalize hpaired.injective hmem (List.mem_map.mpr ⟨c, hc, rfl⟩)
        (List.mem_map.mpr ⟨call, hcall, rfl⟩) hids
      rw [List.inj_on_of_nodup_map (hpaired.distinctCalls _ hmem a rfl) hc hcall heqid]

end

/-- A well-paired history in which no call keeps an ID an earlier reply has
rewritten keeps its pairs, in both bindings, exactly when no call's ID is
rewritten to the empty string. -/
theorem pairing_kept_iff (nowMs : Nat → Int) (messages : List LegacyMessage) (target : TargetModel)
    (normalize : Option NormalizeToolCallId)
    (hpaired : WellPaired target normalize (messages.map normalizeLegacyContent))
    (hstale : NoStaleId target normalize (messages.map normalizeLegacyContent)) :
    (KeepsPairing target (messages.map normalizeLegacyContent) (transformMessages nowMs messages target normalize) ↔
        NoEmptyId target normalize (messages.map normalizeLegacyContent)) ∧
      (KeepsPairing target (messages.map normalizeLegacyContent)
          (Rust.transformLegacyMessages nowMs messages target normalize) ↔
        NoEmptyId target normalize (messages.map normalizeLegacyContent)) := by
  rw [transformMessages_eq, transformLegacyMessages_eq]
  exact ⟨keepsPairing_transform_iff target normalize _ nowMs _ hpaired hstale,
    keepsPairing_transform_iff target normalize _ nowMs _ hpaired hstale⟩

/-! ## Concrete histories -/

/-- A reply of `model` with one call of ID `id`. -/
def replyCalling (model id : String) : AssistantMessage where
  content := [.toolCall { id, name := "echo", arguments := Arguments.adopt [] }]
  stopReason := .toolUse
  usage := {}
  model := model
  provider := "p"
  timestamp := 0

/-- A result for the call of ID `id`. -/
def resultFor (id : String) : ToolResultMessage where
  toolCallId := id
  content := []
  timestamp := 0
  toolName := "echo"

/-- The target the concrete histories are transformed for. -/
def modelM : TargetModel := ⟨⟨"p", "m", "mock"⟩, true⟩

/-- One call of another model and its result. -/
def otherModelHistory : List LegacyMessage :=
  [{ message := .assistant (replyCalling "other" "a") }, { message := .toolResult (resultFor "a") }]

/-- The same followed by a call of the target model that reuses the ID. -/
def reusedIdHistory : List LegacyMessage :=
  otherModelHistory ++
    [{ message := .assistant (replyCalling "m" "a") }, { message := .toolResult (resultFor "a") }]

/-- A normalizer that prefixes an ID keeps the pair of `otherModelHistory`. -/
theorem pairing_kept_prefixed :
    (KeepsPairing modelM (otherModelHistory.map normalizeLegacyContent)
        (transformMessages (fun _ => 0) otherModelHistory modelM (some fun id _ _ => "x-" ++ id)) ↔
      NoEmptyId modelM (some fun id _ _ => "x-" ++ id) (otherModelHistory.map normalizeLegacyContent)) ∧
      (KeepsPairing modelM (otherModelHistory.map normalizeLegacyContent)
          (Rust.transformLegacyMessages (fun _ => 0) otherModelHistory modelM (some fun id _ _ => "x-" ++ id)) ↔
        NoEmptyId modelM (some fun id _ _ => "x-" ++ id) (otherModelHistory.map normalizeLegacyContent)) :=
  pairing_kept_iff (fun _ => 0) otherModelHistory modelM (some fun id _ _ => "x-" ++ id)
    ⟨by unfold AnsweredOnce; decide, by unfold DistinctCalls; decide, by unfold NormalizerInjective; decide⟩
    (by unfold NoStaleId; decide)

/-- Pairs are not kept in every well-paired history.  A normalizer may give
the empty ID, which the call takes and its result does not; and a call of the
target model may reuse an ID that was rewritten for another model, which its
result then takes and the call does not. -/
theorem pairing_not_kept :
    (WellPaired modelM (some fun _ _ _ => "") (otherModelHistory.map normalizeLegacyContent) ∧
      ¬ KeepsPairing modelM (otherModelHistory.map normalizeLegacyContent)
        (transformMessages (fun _ => 0) otherModelHistory modelM (some fun _ _ _ => ""))) ∧
    (WellPaired modelM (some fun id _ _ => "x-" ++ id) (reusedIdHistory.map normalizeLegacyContent) ∧
      ¬ KeepsPairing modelM (reusedIdHistory.map normalizeLegacyContent)
        (transformMessages (fun _ => 0) reusedIdHistory modelM (some fun id _ _ => "x-" ++ id))) := by
  refine ⟨⟨⟨by unfold AnsweredOnce; decide, by unfold DistinctCalls; decide, by unfold NormalizerInjective; decide⟩,
    fun h => ?_⟩,
    ⟨by unfold AnsweredOnce; decide, by unfold DistinctCalls; decide, by unfold NormalizerInjective; decide⟩,
    fun h => ?_⟩
  -- a result is inserted, so the output is longer than the kept input
  · exact absurd h.nothingInserted.length_eq (by decide)
  · exact absurd h.nothingInserted.length_eq (by decide)

end MinionAgent.Transformation
