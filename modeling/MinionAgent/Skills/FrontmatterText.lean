import MinionAgent.Library.ReadLog
import MinionAgent.Skills.Frontmatter

/-!
# MinionAgent.Skills.FrontmatterText

The texts of the frontmatter reader: which are free of forbidden characters, and
which have a first character where the reader looks at it.

* `Clean` — no forbidden character, for a text and for what is cut from it;
* `Value.Sound` — a value of the subset, of bounded depth;
* `decodeDouble_appends` — a double-quoted scalar decodes to a clean text.
-/

namespace MinionAgent.Frontmatter

open Program (Appends)
open Rfc8259 (CodePoint codePoint)

/-! ## Clean texts -/

/-- A text without forbidden characters. -/
def Clean (text : Text) : Prop := ∀ c ∈ text, forbidden c = false

theorem Clean.of_subset {text part : Text} (h : Clean text) (hpart : part ⊆ text) : Clean part :=
  fun c hc => h c (hpart hc)

@[simp] theorem clean_nil : Clean [] := fun _ h => nomatch h

@[simp] theorem clean_cons {c : CodePoint} {text : Text} : Clean (c :: text) ↔ forbidden c = false ∧ Clean text :=
  List.forall_mem_cons

@[simp] theorem clean_append {text more : Text} : Clean (text ++ more) ↔ Clean text ∧ Clean more :=
  List.forall_mem_append

theorem clean_replicate {c : CodePoint} (n : Nat) (h : forbidden c = false) : Clean (List.replicate n c) :=
  fun _ hd => List.eq_of_mem_replicate hd ▸ h

theorem forbidden_space : forbidden 0x20 = false := by decide

theorem forbidden_newline : forbidden 0x0A = false := by decide

theorem forbidden_simpleEscape {e c : CodePoint} (he : forbidden e = false) (h : simpleEscape e = some c) :
    forbidden c = false := by
  unfold simpleEscape at h
  split at h
  · simp_all
  · split at h
    · obtain rfl : 0x09 = c := by simpa using h
      decide
    · split at h
      · obtain rfl : 0x0A = c := by simpa using h
        decide
      · simp at h

/-! ## Plain lines -/

theorem searchComment_subset (text : Text) : (searchComment text).1 ⊆ text := by
  fun_induction searchComment text with
  | case1 c d rest h => simp
  | case2 c d rest h ih => exact List.cons_subset_cons c ih
  | case3 text h => exact fun _ h => h

theorem rstrip_subset (text : Text) : rstrip text ⊆ text := (List.rdropWhile_prefix _ _).subset

theorem plainLine_subset (raw : Text) : plainLine raw ⊆ raw :=
  fun _ h => searchComment_subset raw (rstrip_subset _ h)

theorem searchComment_cons {c : CodePoint} (rest : Text) (hc : isSpTab c = false) :
    ∃ more, (searchComment (c :: rest)).1 = c :: more := by
  cases rest with
  | nil => exact ⟨[], rfl⟩
  | cons d rest => exact ⟨(searchComment (d :: rest)).1, by simp [searchComment, hc]⟩

theorem rstrip_ne_nil {text : Text} {c : CodePoint} (hmem : c ∈ text) (hc : isSpTab c = false) : rstrip text ≠ [] := by
  intro hnil
  have := List.rdropWhile_eq_nil_iff.mp hnil c hmem
  simp [hc] at this

/-- A text that starts with neither a space nor a tab has a plain part. -/
theorem plainLine_ne_nil {c : CodePoint} {rest : Text} (hc : isSpTab c = false) : plainLine (c :: rest) ≠ [] := by
  obtain ⟨more, hmore⟩ := searchComment_cons rest hc
  exact rstrip_ne_nil (hmore ▸ List.mem_cons_self) hc

/-! ## Quoted scalars -/

theorem closeDouble_subset {text body behind : Text} (h : closeDouble text = some (body, behind)) : body ⊆ text := by
  fun_induction closeDouble text generalizing body behind with
  | case1 => simp at h
  | case2 c rest hquote => grind
  | case3 c hquote hescape => simp at h
  | case4 c hquote hescape d rest ih =>
    obtain ⟨⟨inner, behind'⟩, hinner, heq⟩ := Option.map_eq_some_iff.mp h
    grind
  | case5 c rest hquote hescape ih =>
    obtain ⟨⟨inner, behind'⟩, hinner, heq⟩ := Option.map_eq_some_iff.mp h
    grind

theorem closeSingle_subset {text out behind : Text} (h : closeSingle text = some (out, behind)) : out ⊆ text := by
  fun_induction closeSingle text generalizing out behind with
  | case1 => simp at h
  | case2 c hquote => grind
  | case3 c hquote d rest hdouble ih =>
    obtain ⟨⟨inner, behind'⟩, hinner, heq⟩ := Option.map_eq_some_iff.mp h
    grind
  | case4 c hquote d rest hdouble => grind
  | case5 c rest hquote ih =>
    obtain ⟨⟨inner, behind'⟩, hinner, heq⟩ := Option.map_eq_some_iff.mp h
    grind

/-! ## Values -/

/-- A value of the subset, with collections within each other at most so deep. -/
inductive Value.Sound : Nat → Value → Prop
  | null {depth : Nat} : Sound depth .null
  | bool {depth : Nat} (b : Bool) : Sound depth (.bool b)
  | number {depth : Nat} {text : Text} (h : Clean text) : Sound depth (.number text)
  | string {depth : Nat} {text : Text} (h : Clean text) : Sound depth (.string text)
  | list {depth : Nat} {items : List Value} (h : ∀ value ∈ items, Sound depth value) : Sound (depth + 1) (.list items)
  | dict {depth : Nat} {entries : List (Text × Value)}
      (hkeys : ∀ entry ∈ entries, isKey entry.1 = true ∧ entry.1 ∉ reservedKeys) (hnodup : (entries.map (·.1)).Nodup)
      (h : ∀ entry ∈ entries, Sound depth entry.2) : Sound (depth + 1) (.dict entries)

theorem resolvePlain_sound {text : Text} {depth : Nat} (h : Clean text) : (resolvePlain text).Sound depth := by
  unfold resolvePlain
  split
  · exact .null
  · split
    · exact .bool _
    · split
      · exact .number h
      · exact .string h

/-! ## What is raised -/

/-- A `FrontmatterError`, or one for a recursion too deep where there may be one. -/
def Allowed (deep : Prop) : Raised → Prop
  | .frontmatterError _ => True
  | .recursionError => deep
  | .indexError => False
  | .assertionError => False

section

variable {α β : Type} {deep : Prop}

theorem appends_fail {Q : α → Log → Prop} (message : String) : Appends (fail message) Q (Allowed deep) :=
  Appends.throw trivial

theorem appends_fail_bind {Q : β → Log → Prop} {f : α → Read β} (message : String) :
    Appends (fail message >>= f) Q (Allowed deep) :=
  Appends.throw_bind trivial

theorem appends_item {Q : α → Log → Prop} {xs : List α} {i : Nat} {x : α} (hx : xs[i]? = some x) (h : Q x []) :
    Appends (item xs i) Q (Allowed deep) := by
  unfold item
  rw [hx]
  exact .pure h

/-- A test of a plain text reads no line; the text must not be empty. -/
theorem checkPlainSegment_appends {text : Text} (first : Bool) (h : text ≠ []) :
    Appends (checkPlainSegment text first) (fun _ reads => reads = []) (Allowed deep) := by
  unfold checkPlainSegment
  obtain ⟨c, rest, rfl⟩ := List.exists_cons_of_ne_nil h
  refine (appends_item (Q := fun d reads => d = c ∧ reads = []) rfl ⟨rfl, rfl⟩).bind fun d reads hd => ?_
  obtain ⟨rfl, rfl⟩ := hd
  refine .ite (fun _ => appends_fail _) fun _ => .ite (fun _ => appends_fail _) fun _ => ?_
  exact .ite (fun _ => appends_fail _) fun _ => .pure rfl

theorem decodeLoop_appends {out text : Text} (hout : Clean out) (htext : Clean text) :
    Appends (decodeLoop out text) (fun value reads => Clean value ∧ reads = []) (Allowed deep) := by
  fun_induction decodeLoop out text with
  | case1 out => exact .pure ⟨hout, rfl⟩
  | case2 out c rest hescape ih =>
    obtain ⟨hc, hrest⟩ := clean_cons.mp htext
    exact ih (by simp [hout, hc]) hrest
  | case3 | case5 | case6 | case7 => exact appends_fail _
  | case4 out c hescape e rest d hd ih =>
    obtain ⟨-, he, hrest⟩ : _ ∧ forbidden e = false ∧ Clean rest := by simpa using htext
    exact ih (by simp [hout, forbidden_simpleEscape he hd]) hrest
  | case8 out c hescape e rest he width hwidth number hnumber hin ih =>
    have hrest : Clean rest := htext.of_subset fun _ h => List.mem_cons_of_mem _ (List.mem_cons_of_mem _ h)
    have hnumber : forbidden (codePoint number) = false := by grind
    exact ih (by simp [hout, hnumber]) (hrest.of_subset (List.drop_subset _ _))

/-- A double-quoted scalar decodes to a clean text. -/
theorem decodeDouble_appends {body : Text} (h : Clean body) :
    Appends (decodeDouble body) (fun value reads => Clean value ∧ reads = []) (Allowed deep) :=
  decodeLoop_appends clean_nil h

end

end MinionAgent.Frontmatter
