import Mathlib.Data.List.DropRight
import MinionAgent.Llm.Answered

/-!
# MinionAgent.Llm.Agreement

Where the Python and the Rust transformation agree.

Both refine `transform`; they differ in what is blank.  `str.strip` also
strips the separators U+001C to U+001F, which have no `White_Space` property
and which `str::trim` keeps.  So they agree exactly on the histories in which
no thinking whose text decides is made blank by such a character alone
(`transformations_agree_iff`).
-/

namespace MinionAgent.Transformation

open Obligation

/-! ## Blank text -/

/-- The information separators U+001C to U+001F. -/
def isInformationSeparator (c : Char) : Bool := 0x1C ≤ c.toNat && c.toNat ≤ 0x1F

theorem isPySpace_eq (c : Char) : isPySpace c = (Rust.isWhitespace c || isInformationSeparator c) := by
  rw [Bool.eq_iff_iff]
  simp only [isPySpace, Rust.isWhitespace, isInformationSeparator, Bool.or_eq_true, Bool.and_eq_true,
    decide_eq_true_eq, beq_iff_eq]
  omega

/-- Stripping a text at both ends leaves nothing exactly when every character
is stripped. -/
theorem strip_isEmpty (p : Char → Bool) (cs : List Char) :
    (((cs.dropWhile p).reverse).dropWhile p).reverse.isEmpty = cs.all p := by
  rw [Bool.eq_iff_iff, List.isEmpty_iff, List.all_eq_true, ← List.rdropWhile, List.rdropWhile_eq_nil_iff]
  constructor
  · intro h
    rw [← List.dropWhile_eq_nil_iff]
    cases hd : cs.dropWhile p with
    | nil => rfl
    | cons c rest =>
      -- the first character that is left does not satisfy `p`
      have hc := List.head?_dropWhile_not p cs
      simp only [hd, List.head?_cons] at hc
      simp [hd, hc] at h
  · intro h c hc
    exact h c ((List.dropWhile_sublist p).subset hc)

theorem pyBlank_iff (text : String) : pyBlank text = true ↔ ∀ c ∈ text.toList, isPySpace c = true := by
  rw [pyBlank, pyStrip, strip_isEmpty, Bool.or_eq_true, List.all_eq_true]
  constructor
  · rintro (hempty | hall)
    · intro c hc
      simp [String.isEmpty_iff.mp hempty] at hc
    · exact hall
  · exact .inr

theorem rustBlank_iff (text : String) : rustBlank text = true ↔ ∀ c ∈ text.toList, Rust.isWhitespace c = true := by
  rw [rustBlank, Rust.trim, strip_isEmpty, List.all_eq_true]

/-- What Rust takes for blank Python does too. -/
theorem pyBlank_of_rustBlank {text : String} (h : rustBlank text = true) : pyBlank text = true := by
  rw [pyBlank_iff]
  intro c hc
  rw [isPySpace_eq, (rustBlank_iff text).mp h c hc, Bool.true_or]

/-- Blank for Python only through an information separator. -/
def SeparatorBlank (text : String) : Prop :=
  (∀ c ∈ text.toList, isPySpace c = true) ∧ ∃ c ∈ text.toList, isInformationSeparator c = true

instance (text : String) : Decidable (SeparatorBlank text) :=
  inferInstanceAs (Decidable (_ ∧ _))

theorem separatorBlank_iff (text : String) :
    SeparatorBlank text ↔ pyBlank text = true ∧ rustBlank text = false := by
  rw [SeparatorBlank, ← pyBlank_iff, and_congr_right_iff]
  intro hpy
  rw [← Bool.not_eq_true, rustBlank_iff]
  constructor
  · rintro ⟨c, hc, hsep⟩ hall
    have hwhite := hall c hc
    simp only [Rust.isWhitespace, isInformationSeparator, Bool.or_eq_true, Bool.and_eq_true, decide_eq_true_eq,
      beq_iff_eq] at hwhite hsep
    omega
  · intro hnot
    push Not at hnot
    obtain ⟨c, hc, hwhite⟩ := hnot
    refine ⟨c, hc, ?_⟩
    have hspace := (pyBlank_iff text).mp hpy c hc
    rwa [isPySpace_eq, Bool.not_eq_true _ |>.mp hwhite, Bool.false_or] at hspace

/-! ## Replies that read the same -/

section

variable (target : TargetModel) (normalize : Option NormalizeToolCallId)

/-- The text of a thinking block decides what becomes of it. -/
def TextDecides (sameModel : Bool) (block : ThinkingBlock) : Prop :=
  block.redacted = false ∧ (sameModel && truthy block.thinkingSignature) = false

/-- Every thinking text of `a` that decides is blank for both or for none. -/
def BlankAlike (a : AssistantMessage) : Prop :=
  ∀ block, .thinking block ∈ a.content → TextDecides (isSameModel a target) block → ¬ SeparatorBlank block.thinking

theorem newThinking_of_not_textDecides {sameModel : Bool} {block : ThinkingBlock}
    (h : ¬ TextDecides sameModel block) (blank blank' : String → Bool) :
    newThinking blank sameModel block = newThinking blank' sameModel block := by
  unfold newThinking TextDecides at *
  cases hredacted : block.redacted <;> simp_all

/-- Python's block is Rust's or is dropped, and only separators tell them
apart. -/
theorem newBlock_sublist (a : AssistantMessage) (block : AssistantContentBlock) :
    (newBlock pyBlank target normalize a block).Sublist (newBlock rustBlank target normalize a block) := by
  cases block with
  | text text => exact .refl _
  | toolCall call => exact .refl _
  | thinking thinking =>
    simp only [newBlock, newThinking]
    cases hrust : rustBlank thinking.thinking with
    | true => simp [pyBlank_of_rustBlank hrust]
    | false => cases pyBlank thinking.thinking <;> split_ifs <;> simp_all

theorem newBlock_eq_iff (a : AssistantMessage) (thinking : ThinkingBlock) :
    newBlock pyBlank target normalize a (.thinking thinking) =
      newBlock rustBlank target normalize a (.thinking thinking) ↔
      (TextDecides (isSameModel a target) thinking → ¬ SeparatorBlank thinking.thinking) := by
  by_cases htext : TextDecides (isSameModel a target) thinking
  · obtain ⟨hredacted, hsigned⟩ := htext
    simp only [newBlock, newThinking, hredacted, hsigned, TextDecides, separatorBlank_iff]
    cases hpy : pyBlank thinking.thinking <;> cases hrust : rustBlank thinking.thinking <;>
      cases isSameModel a target <;> simp_all [pyBlank_of_rustBlank]
  · simp [newBlock, newThinking_of_not_textDecides htext pyBlank rustBlank, htext]

private theorem flatMap_sublist {α β : Type} {f g : α → List β} {xs : List α}
    (hsub : ∀ x ∈ xs, (f x).Sublist (g x)) : (xs.flatMap f).Sublist (xs.flatMap g) := by
  induction xs with
  | nil => exact .slnil
  | cons x xs ih =>
    rw [List.flatMap_cons, List.flatMap_cons]
    exact (hsub x (by simp)).append (ih fun y hy => hsub y (by simp [hy]))

/-- Lists put together from sublists are equal only when every part is. -/
private theorem eq_of_flatMap_eq {α β : Type} {f g : α → List β} {xs : List α}
    (hsub : ∀ x ∈ xs, (f x).Sublist (g x)) (h : xs.flatMap f = xs.flatMap g) : ∀ x ∈ xs, f x = g x := by
  induction xs with
  | nil => simp
  | cons x xs ih =>
    have hhead : (f x).Sublist (g x) := hsub x (by simp)
    have htail : (xs.flatMap f).Sublist (xs.flatMap g) := flatMap_sublist fun y hy => hsub y (by simp [hy])
    rw [List.flatMap_cons, List.flatMap_cons] at h
    have hlength := congrArg List.length h
    rw [List.length_append, List.length_append] at hlength
    have hx : f x = g x := hhead.eq_of_length (by have := hhead.length_le; have := htail.length_le; omega)
    rw [hx] at h
    intro y hy
    rcases List.mem_cons.mp hy with rfl | hy
    · exact hx
    · exact ih (fun z hz => hsub z (by simp [hz])) (List.append_cancel_left h) y hy

theorem newAssistant_eq_iff (a : AssistantMessage) :
    newAssistant pyBlank target normalize a = newAssistant rustBlank target normalize a ↔ BlankAlike target a := by
  simp only [newAssistant, AssistantMessage.mk.injEq, and_true]
  constructor
  · intro h block hblock
    exact (newBlock_eq_iff target normalize a block).mp
      (eq_of_flatMap_eq (fun x _ => newBlock_sublist target normalize a x) h _ hblock)
  · intro h
    refine List.flatMap_congr fun block hblock => ?_
    cases block with
    | text text => rfl
    | toolCall call => rfl
    | thinking thinking => exact (newBlock_eq_iff target normalize a thinking).mpr (h thinking hblock)

/-! ## Histories -/

/-- The replies that are kept, as a given notion of blank leaves them. -/
theorem filterMap_assistant?_transform (blank : String → Bool) (nowMs : Nat → Int) (messages : List Message) :
    (transform blank nowMs target normalize messages).filterMap Message.assistant? =
      ((messages.filter fun m => !m.failed).filterMap Message.assistant?).map
        (newAssistant blank target normalize) := by
  have hpadded := padded_orphanPass nowMs (contentPass blank target normalize [] (imagePass target messages))
  have hinsert : ∀ {xs ys : List Message}, Padded (fun m => ∃ i k, m = answer nowMs i k) xs ys →
      ys.filterMap Message.assistant? = xs.filterMap Message.assistant? := by
    intro xs ys h
    induction h with
    | nil => rfl
    | keep _ ih => simp only [List.filterMap_cons, ih]
    | insert hy _ ih =>
      obtain ⟨i, k, rfl⟩ := hy
      rw [answer, List.filterMap_cons_none rfl, ih]
  have hcontent : ∀ (messages : List Message) (idMap : IdMap),
      ((contentPass blank target normalize idMap (imagePass target messages)).filter fun m => !m.failed).filterMap
          Message.assistant? =
        ((messages.filter fun m => !m.failed).filterMap Message.assistant?).map
          (newAssistant blank target normalize) := by
    intro messages
    simp only [imagePass_eq_map]
    induction messages with
    | nil => intro _; rfl
    | cons m messages ih =>
      intro idMap
      cases m with
      | user u =>
        obtain ⟨v, hv⟩ := exists_image_user target u
        simpa [hv, contentPass, List.filterMap_cons] using ih idMap
      | toolResult r =>
        obtain ⟨s, hs, -⟩ := exists_image_toolResult target r
        simpa [hs, contentPass, List.filterMap_cons] using ih idMap
      | assistant a =>
        have hfailed : (newAssistant blank target normalize a).failed = a.failed := rfl
        cases hf : a.failed <;> simp [contentPass, hfailed, hf, ih]
  rw [transform, hinsert hpadded, hcontent]

/-- Content passes that differ in failed replies only. -/
theorem forall₂_contentPass_blank (messages : List Message) (idMap : IdMap)
    (h : ∀ a, .assistant a ∈ messages → a.failed = false → BlankAlike target a) :
    List.Forall₂ (fun m n => m = n ∨ classify m = .discards ∧ classify n = .discards)
      (contentPass pyBlank target normalize idMap messages)
        (contentPass rustBlank target normalize idMap messages) := by
  induction messages generalizing idMap with
  | nil => exact .nil
  | cons m messages ih =>
    have hrest : ∀ a, .assistant a ∈ messages → a.failed = false → BlankAlike target a :=
      fun a ha => h a (List.mem_cons_of_mem _ ha)
    cases m with
    | user u => exact .cons (.inl rfl) (ih idMap hrest)
    | toolResult r => exact .cons (.inl rfl) (ih idMap hrest)
    | assistant a =>
      refine .cons ?_ (ih _ hrest)
      cases hfailed : a.failed with
      | false =>
        left
        rw [(newAssistant_eq_iff target normalize a).mpr (h a (by simp) hfailed)]
      | true =>
        right
        have hpy : (newAssistant pyBlank target normalize a).failed = true := hfailed
        have hrust : (newAssistant rustBlank target normalize a).failed = true := hfailed
        simp [classify, hpy, hrust]

end

/-- The same message, or the same orphan result at another time. -/
def SameUpToClock (m n : Message) : Prop :=
  m = n ∨ ∃ call t t', m = .toolResult (orphanResult t call) ∧ n = .toolResult (orphanResult t' call)

theorem SameUpToClock.assistant?_eq {m n : Message} (h : SameUpToClock m n) : m.assistant? = n.assistant? := by
  rcases h with rfl | ⟨call, t, t', rfl, rfl⟩ <;> rfl

/-- The Python and the Rust transformation return the same messages, the
timestamps of orphan results aside, exactly when no thinking of a kept reply
whose text decides is blank through an information separator. -/
theorem transformations_agree_iff (nowMs nowMillis : Nat → Int) (messages : List LegacyMessage)
    (target : TargetModel) (normalize : Option NormalizeToolCallId) :
    List.Forall₂ SameUpToClock (transformMessages nowMs messages target normalize)
        (Rust.transformLegacyMessages nowMillis messages target normalize) ↔
      ∀ a : AssistantMessage, .assistant a ∈ messages.map normalizeLegacyContent → a.failed = false →
        BlankAlike target a := by
  rw [transformMessages_eq, transformLegacyMessages_eq]
  constructor
  · intro h a ha hfailed
    -- the replies of the outputs are equal lists, and each comes from one of the input
    have hreplies : ∀ {xs ys : List Message}, List.Forall₂ SameUpToClock xs ys →
        xs.filterMap Message.assistant? = ys.filterMap Message.assistant? := by
      intro xs ys hsame
      induction hsame with
      | nil => rfl
      | cons hmn _ ih => simp only [List.filterMap_cons, hmn.assistant?_eq, ih]
    replace hreplies := hreplies h
    rw [filterMap_assistant?_transform, filterMap_assistant?_transform] at hreplies
    have hmem : a ∈ ((messages.map normalizeLegacyContent).filter fun m => !m.failed).filterMap Message.assistant? :=
      List.mem_filterMap.mpr ⟨.assistant a, List.mem_filter.mpr ⟨ha, by simp [hfailed]⟩, rfl⟩
    exact (newAssistant_eq_iff target normalize a).mp (List.map_inj_left.mp hreplies a hmem)
  · intro h
    refine forall₂_discharge (fun m => .inl rfl) (fun n call => .inr ⟨call, _, _, rfl, rfl⟩)
      (forall₂_contentPass_blank target normalize _ [] fun a ha => h a ?_) 0 [] []
    rw [imagePass_eq_map] at ha
    obtain ⟨m, hm, himage⟩ := List.mem_map.mp ha
    cases m with
    | assistant b => rwa [← himage, image_assistant]
    | toolResult r =>
      obtain ⟨s, hs, -⟩ := exists_image_toolResult target r
      simp [hs] at himage
    | user u =>
      obtain ⟨v, hv⟩ := exists_image_user target u
      simp [hv] at himage

/-- A reply whose only block is unsigned thinking of one separator. -/
def separatorReply : AssistantMessage where
  content := [.thinking { thinking := "\x1c" }]
  stopReason := .stop
  usage := {}
  model := "m"
  provider := "p"
  timestamp := 0

/-- The bindings do not agree on every history: Python drops the thinking of
`separatorReply` for its own model, Rust keeps it. -/
theorem transformations_disagree :
    ¬ ∀ (nowMs nowMillis : Nat → Int) (messages : List LegacyMessage) (target : TargetModel)
        (normalize : Option NormalizeToolCallId),
      List.Forall₂ SameUpToClock (transformMessages nowMs messages target normalize)
        (Rust.transformLegacyMessages nowMillis messages target normalize) := by
  intro h
  have hpy : transformMessages (fun _ => 0) [{ message := .assistant separatorReply }]
      ⟨⟨"p", "m", "mock"⟩, true⟩ none = [.assistant { separatorReply with content := [] }] := by decide
  have hrust : Rust.transformLegacyMessages (fun _ => 0) [{ message := .assistant separatorReply }]
      ⟨⟨"p", "m", "mock"⟩, true⟩ none = [.assistant separatorReply] := by decide
  have hagree := h (fun _ => 0) (fun _ => 0) [{ message := .assistant separatorReply }] ⟨⟨"p", "m", "mock"⟩, true⟩ none
  rw [hpy, hrust, List.forall₂_cons] at hagree
  rcases hagree.1 with heq | ⟨call, t, t', horphan, _⟩
  · exact absurd heq (by decide)
  · cases horphan

end MinionAgent.Transformation
