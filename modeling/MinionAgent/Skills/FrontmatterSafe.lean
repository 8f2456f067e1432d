import MinionAgent.Library.SplitOn
import MinionAgent.Skills.FrontmatterText

/-!
# MinionAgent.Skills.FrontmatterSafe

The frontmatter reader raises nothing but `FrontmatterError`, and reads each line
of content once.

Every nested reader is specified by the lines it reads: they cover what is between
the line it starts at and the line its caller goes on with.

* `sameLineScalar_appends`, `blockScalar_appends`, `sequence_appends`, `mapping_appends` — the nested readers;
* `read_subset_safe` — the whole.
-/

namespace MinionAgent.Frontmatter

open Program (Appends)
open Rfc8259 (CodePoint codePoint)

/-! ## Lines -/

/-- What holds of the lines of a reader. -/
structure Reader.Valid (r : Reader) : Prop where
  clean : ∀ line ∈ r.lines, Clean line
  flat : ∀ line ∈ r.lines, (line.dropWhile (· == 0x20)).head? ≠ some 0x09

/-- A line with content: neither blank nor a comment. -/
def Reader.ContentAt (r : Reader) (k : Nat) : Prop := ∃ line, r.lines[k]? = some line ∧ blankOrComment line = false

/-- A line that is not blank. -/
def Reader.TextAt (r : Reader) (k : Nat) : Prop := ∃ line, r.lines[k]? = some line ∧ blank line = false

/-- The lines read, from one line up to another: all with content, and none that is blank. -/
def Reader.Reads (r : Reader) (start stop : Nat) (reads : Log) : Prop :=
  Covers r.ContentAt r.TextAt start stop (reads.map (·.1))

section

variable {r : Reader} {deep : Prop}

theorem blank_of_content {line : Text} (h : blankOrComment line = false) : blank line = false :=
  (Bool.or_eq_false_iff.mp h).1

theorem reads_skip {k : Nat} {line : Text} (hline : r.lines[k]? = some line) (h : blankOrComment line = true) :
    r.Reads k (k + 1) [] := by
  refine Covers.nil (Nat.le_succ k) fun k' hk hk' hcontent => ?_
  obtain ⟨line', hline', hcontent⟩ := hcontent
  obtain rfl : k' = k := by omega
  grind

theorem reads_line {k : Nat} {line : Text} (hline : r.lines[k]? = some line) (h : blank line = false) (owner : Owner) :
    r.Reads k (k + 1) [(k, owner)] :=
  Covers.single ⟨line, hline, h⟩

theorem reads_empty {k : Nat} : r.Reads k k [] := Covers.empty

theorem Reader.Reads.append {start middle stop : Nat} {reads more : Log} (h : r.Reads start middle reads)
    (hmore : r.Reads middle stop more) : r.Reads start stop (reads ++ more) := by
  unfold Reader.Reads
  rw [List.map_append]
  exact Covers.append h hmore

/-- The first character of a line that is not blank. -/
theorem Reader.Valid.lead (hr : r.Valid) {line : Text} (hmem : line ∈ r.lines) (h : blank line = false) :
    ∃ c rest, line.dropWhile (· == 0x20) = c :: rest ∧ isSpTab c = false := by
  cases hline : line.dropWhile (· == 0x20) with
  | nil =>
    have hall := List.dropWhile_eq_nil_iff.mp hline
    have : blank line = true := List.all_eq_true.mpr fun c hc => by simp [isSpTab, hall c hc]
    simp [h] at this
  | cons c rest =>
    refine ⟨c, rest, rfl, ?_⟩
    have hspace := List.head?_dropWhile_not (p := (· == 0x20)) line
    have htab := hr.flat line hmem
    rw [hline] at hspace htab
    simp [isSpTab] at hspace htab ⊢
    exact ⟨hspace, htab⟩

/-! ## Scalars -/

/-- The lines of a plain scalar. -/
theorem continuation_appends (hr : r.Valid) (n : Nat) {text : Text} (htext : Clean text) (blanks : Nat) {j : Nat}
    (hj : j ≤ r.lines.length) :
    Appends (r.continuation n text blanks j)
      (fun result reads => Clean result.1 ∧ r.Reads j result.2 reads ∧ result.2 ≤ r.lines.length) (Allowed deep) := by
  fun_induction Reader.continuation r n text blanks j with
  | case1 text blanks j hlt line hblank ih =>
    have hskip := reads_skip (List.getElem?_eq_getElem hlt) (Bool.or_eq_true_iff.mpr (.inl hblank))
    exact (ih htext hlt).imp fun result reads h => ⟨h.1, hskip.append h.2.1, h.2.2⟩
  | case2 => exact .pure ⟨htext, reads_empty, hj⟩
  | case3 | case4 => exact appends_fail _
  | case5 text blanks j hlt line hblank hindent hcomment stripped seg hseg ih =>
    have hmem : line ∈ r.lines := List.getElem_mem hlt
    obtain ⟨c, rest, hstripped, hlead⟩ := hr.lead hmem (by simpa using hblank)
    have hne : seg ≠ [] := by
      show plainLine (line.dropWhile (· == 0x20)) ≠ []
      rw [hstripped]
      exact plainLine_ne_nil hlead
    have hclean : Clean seg := (hr.clean line hmem).of_subset fun c hc =>
      (List.dropWhile_sublist _).subset (plainLine_subset _ hc)
    have hjoined : Clean (text ++ (if blanks = 0 then [0x20] else List.replicate blanks 0x0A) ++ seg) := by
      have := clean_replicate blanks forbidden_newline
      split <;> simp [htext, hclean, forbidden_space, this]
    refine (checkPlainSegment_appends false hne).bind fun _ reads hnone => ?_
    have hread := reads_line (List.getElem?_eq_getElem hlt) (by simpa using hblank) .scalar
    refine Appends.bind (Q := fun _ reads => reads = [(j, .scalar)]) (.write rfl) fun _ reads' hline => ?_
    subst hnone hline
    exact (ih hjoined hlt).imp fun result reads h => ⟨h.1, hread.append h.2.1, h.2.2⟩
  | case6 => exact .pure ⟨htext, reads_empty, hj⟩

/-- The last line of a plain scalar: what is behind it is blank. -/
theorem lastContent_appends {i start : Nat} (hi : i ≤ start) (hstart : start < r.lines.length) :
    Appends (r.lastContent i start)
      (fun last reads => reads = [] ∧ (i ≤ last ∧ last ≤ start) ∧ ∀ k, last < k → k ≤ start → ¬r.TextAt k)
      (Allowed deep) := by
  induction start with
  | zero => exact .pure ⟨rfl, ⟨hi, Nat.le_refl 0⟩, fun k hk hk' => by omega⟩
  | succ last ih =>
    unfold Reader.lastContent
    refine .ite (fun hgt => ?_) fun hgt => .pure ⟨rfl, ⟨hi, Nat.le_refl _⟩, fun k hk hk' => by omega⟩
    refine (appends_item (Q := fun line reads => r.lines[last + 1]? = some line ∧ reads = [])
      (List.getElem?_eq_getElem hstart) ⟨List.getElem?_eq_getElem hstart, rfl⟩).bind fun line reads hline => ?_
    obtain ⟨hline, rfl⟩ := hline
    refine .ite (fun hblank => ?_) fun hblank => .pure ⟨rfl, ⟨hi, Nat.le_refl _⟩, fun k hk hk' => by omega⟩
    refine (ih (by omega) (by omega)).imp fun found reads h => ?_
    obtain ⟨rfl, hbounds, hnone⟩ := h
    refine ⟨rfl, ⟨hbounds.1, by omega⟩, fun k hk hk' htext => ?_⟩
    by_cases hlast : k = last + 1
    · obtain ⟨line', hline', hblank'⟩ := htext
      grind
    · exact hnone k hk (by omega) htext

theorem plain_appends (hr : r.Valid) {c : CodePoint} {rest : Text} (hc : isSpTab c = false) (hclean : Clean (c :: rest))
    (allowContinuation : Bool) {i : Nat} (hi : i < r.lines.length) (n depth : Nat) :
    Appends (Reader.sameLineScalar.plain r (c :: rest) allowContinuation i n)
      (fun result reads => result.1.Sound depth ∧ r.Reads (i + 1) (i + result.2 + 1) reads ∧
        (allowContinuation = false → result.2 = 0)) (Allowed deep) := by
  unfold Reader.sameLineScalar.plain
  have hfirst : Clean (plainLine (c :: rest)) := hclean.of_subset (plainLine_subset _)
  refine (checkPlainSegment_appends true (plainLine_ne_nil hc)).bind fun _ reads hnone => ?_
  subst hnone
  refine .ite (fun hend => .ite (fun _ => appends_fail_bind _) fun _ => ?_) fun hgo => ?_
  · exact .pure ⟨resolvePlain_sound hfirst, reads_empty, fun _ => rfl⟩
  · refine (continuation_appends hr n hfirst 0 hi).bind fun result reads h => ?_
    obtain ⟨text, j⟩ := result
    obtain ⟨htext, hreads, hj⟩ := h
    have hle : i + 1 ≤ j := hreads.le
    refine (lastContent_appends (show i ≤ j - 1 by omega) (by omega)).bind fun last more h => ?_
    obtain ⟨rfl, hbounds, hblank⟩ := h
    have htrim : r.Reads (i + 1) (last + 1) reads :=
      hreads.trim (by omega) (by omega) fun k hk hk' => hblank k (by omega) (by omega)
    have hlast : i + (last - i) + 1 = last + 1 := by omega
    have hallow : allowContinuation = true := by simp at hgo; exact hgo.1
    refine .pure ⟨resolvePlain_sound htext, ?_, by simp [hallow]⟩
    show r.Reads (i + 1) (i + (last - i) + 1) (reads ++ ([] ++ []))
    rw [hlast]
    simpa using htrim

/-- A scalar on the line of its key or of its item. -/
theorem sameLineScalar_appends (hr : r.Valid) {c : CodePoint} {rest : Text} (hc : isSpTab c = false)
    (hclean : Clean (c :: rest)) (allowContinuation : Bool) {i : Nat} (hi : i < r.lines.length) (n depth : Nat) :
    Appends (r.sameLineScalar (c :: rest) allowContinuation i n)
      (fun result reads => result.1.Sound depth ∧ r.Reads (i + 1) (i + result.2 + 1) reads ∧
        (allowContinuation = false → result.2 = 0)) (Allowed deep) := by
  have hrest : Clean rest := (clean_cons.mp hclean).2
  unfold Reader.sameLineScalar
  refine .ite (fun hdouble => ?_) fun _ => .ite (fun hsingle => ?_) fun _ =>
    plain_appends hr hc hclean allowContinuation hi n depth
  · cases hclose : closeDouble rest with
    | none => exact appends_fail _
    | some result =>
      obtain ⟨body, behind⟩ := result
      refine .ite (fun _ => appends_fail _) fun _ => ?_
      refine (decodeDouble_appends (hrest.of_subset (closeDouble_subset hclose))).bind fun value reads h => ?_
      obtain ⟨hvalue, rfl⟩ := h
      exact .pure ⟨.string hvalue, reads_empty, fun _ => rfl⟩
  · cases hclose : closeSingle rest with
    | none => exact appends_fail _
    | some result =>
      obtain ⟨out, behind⟩ := result
      refine .ite (fun _ => appends_fail _) fun _ => .pure ⟨.string ?_, reads_empty, fun _ => rfl⟩
      exact hrest.of_subset (closeSingle_subset hclose)

/-! ## Block scalars -/

/-- The lines of a block scalar are clean; an empty one has no text. -/
def CleanLines (content : List (Option Text)) : Prop := ∀ text, some text ∈ content → Clean text

theorem CleanLines.of_subset {content part : List (Option Text)} (h : CleanLines content) (hpart : part ⊆ content) :
    CleanLines part :=
  fun text htext => h text (hpart htext)

theorem CleanLines.append {content : List (Option Text)} (h : CleanLines content) (last : Option Text)
    (hlast : ∀ text, last = some text → Clean text) : CleanLines (content ++ [last]) := by
  intro text htext
  cases List.mem_append.mp htext with
  | inl hmem => exact h text hmem
  | inr hmem => exact hlast text (List.mem_singleton.mp hmem).symm

theorem CleanLines.fold {content : List (Option Text)} (h : CleanLines content) (first : Bool) (pending : Nat) :
    Clean (fold first pending content) := by
  induction content generalizing first pending with
  | nil => exact clean_nil
  | cons line content ih =>
    have hcontent : CleanLines content := h.of_subset (List.subset_cons_self _ _)
    cases line with
    | none => exact ih hcontent false (pending + 1)
    | some piece =>
      have hpiece : Clean piece := h piece List.mem_cons_self
      have hjoint := clean_replicate pending forbidden_newline
      unfold Frontmatter.fold
      split <;> try split
      all_goals simp [hpiece, ih hcontent false 0, forbidden_space, hjoint]

theorem CleanLines.literal {content : List (Option Text)} (h : CleanLines content) :
    Clean (List.intercalate [0x0A] (content.map fun piece => piece.getD [])) := by
  induction content with
  | nil => exact clean_nil
  | cons line content ih =>
    have hline : Clean (line.getD []) := by
      cases line with
      | none => exact clean_nil
      | some piece => exact h piece List.mem_cons_self
    have hcontent := ih (h.of_subset (List.subset_cons_self _ _))
    cases content with
    | nil => simpa using hline
    | cons next content =>
      rw [List.map_cons, List.map_cons, List.intercalate_cons_cons]
      simp [hline, forbidden_newline]
      simpa using hcontent

/-- The lines of a block scalar are those behind its header. -/
theorem blockLines_appends (hr : r.Valid) (folded : Bool) (contentIndent : Int) {line : Nat} {region : List Text}
    (hregion : region <+: r.lines.drop line) {content : List (Option Text)} (hcontent : CleanLines content) :
    Appends (blockLines folded contentIndent line region content)
      (fun content reads => CleanLines content ∧ r.Reads line (line + region.length) reads) (Allowed deep) := by
  induction region generalizing line content with
  | nil => exact .pure ⟨hcontent, reads_empty⟩
  | cons text region ih =>
    have htext : r.lines[line]? = some text := by
      obtain ⟨more, hmore⟩ := hregion
      have : (r.lines.drop line)[0]? = some text := by rw [← hmore]; rfl
      simpa using this
    have hnext : region <+: r.lines.drop (line + 1) := by
      obtain ⟨more, hmore⟩ := hregion
      exact ⟨more, by rw [← List.tail_drop, ← hmore]; rfl⟩
    have hclean : Clean text := hr.clean text (List.mem_of_getElem? htext)
    have hlength : line + (text :: region).length = line + 1 + region.length := by rw [List.length_cons]; omega
    unfold blockLines
    rw [hlength]
    refine .ite (fun hblank => ?_) fun hblank => ?_
    · have hskip := reads_skip htext (Bool.or_eq_true_iff.mpr (.inl hblank))
      have hgo := (ih hnext (hcontent.append none (by simp))).imp
        fun content reads h => And.intro h.1 (hskip.append h.2)
      exact .ite (fun _ => appends_fail_bind _) fun _ => hgo
    · have hread := reads_line htext (by simpa using hblank) .scalar
      refine Appends.bind (Q := fun _ reads => reads = [(line, .scalar)]) (.write rfl) fun _ reads hline => ?_
      subst hline
      have hpiece : Clean (text.drop contentIndent.toNat) := hclean.of_subset (List.drop_subset _ _)
      have hgo := (ih hnext (hcontent.append (some (text.drop contentIndent.toNat)) (by simpa using hpiece))).imp
        fun content reads h => And.intro h.1 (hread.append h.2)
      exact .ite (fun _ => appends_fail_bind _) fun _ => .ite (fun _ => appends_fail_bind _) fun _ => hgo

/-- A block scalar. -/
theorem blockScalar_appends (hr : r.Valid) (header : Text) (i n depth : Nat) :
    Appends (r.blockScalar header i n)
      (fun result reads => result.1.Sound depth ∧ r.Reads (i + 1) (i + result.2 + 1) reads) (Allowed deep) := by
  unfold Reader.blockScalar
  cases hheader : matchBlockHeader header with
  | none => exact appends_fail _
  | some header =>
    obtain ⟨style, chomp⟩ := header
    have hregion := List.takeWhile_prefix (fun line => blank line || indent line > n) (l := r.lines.drop (i + 1))
    have hnone : CleanLines [] := fun _ h => nomatch h
    refine (blockLines_appends hr _ _ hregion hnone).bind fun content reads h => ?_
    obtain ⟨hcontent, hreads⟩ := h
    have hkept : CleanLines (content.rdropWhile (·.isNone)) :=
      hcontent.of_subset (List.rdropWhile_prefix _ _).subset
    generalize (List.takeWhile _ _).length = size at hreads ⊢
    have hend (text : Text) (htext : Clean text) :
        Appends (pure (Value.string text, i + 1 + size - 1 - i))
          (fun result more => result.1.Sound depth ∧ r.Reads (i + 1) (i + result.2 + 1) (reads ++ more))
          (Allowed deep) := by
      have hstop : i + (i + 1 + size - 1 - i) + 1 = i + 1 + size := by omega
      refine .pure ⟨.string htext, ?_⟩
      show r.Reads (i + 1) (i + (i + 1 + size - 1 - i) + 1) (reads ++ [])
      rw [hstop, List.append_nil]
      exact hreads
    have hlines (n : Nat) : Clean (List.replicate n 0x0A) := clean_replicate n forbidden_newline
    refine .ite (fun _ => hend _ ?_) fun _ => ?_
    · split
      · exact hlines _
      · exact clean_nil
    have hbody : Clean (if (style == 0x7C) = true then List.intercalate [0x0A] ((content.rdropWhile (·.isNone)).map
        fun piece => piece.getD []) else fold true 0 (content.rdropWhile (·.isNone))) := by
      split
      · exact hkept.literal
      · exact hkept.fold true 0
    refine .ite (fun _ => hend _ hbody) fun _ => .ite (fun _ => hend _ ?_) fun _ => hend _ ?_
    · exact clean_append.mpr ⟨clean_append.mpr ⟨hbody, hlines 1⟩, hlines _⟩
    · exact clean_append.mpr ⟨hbody, hlines 1⟩

/-! ## Sequences -/

/-- A line with content at an indentation. -/
def Reader.IndentedAt (r : Reader) (n k : Nat) : Prop :=
  ∃ line, r.lines[k]? = some line ∧ blankOrComment line = false ∧ indent line = n

/-- A line with an item. -/
def Reader.ItemAt (r : Reader) (m k : Nat) : Prop :=
  ∃ line, r.lines[k]? = some line ∧ blankOrComment line = false ∧ indent line = m ∧
    (chars "- ").isPrefixOf (line.drop m) = true

/-- What a value starts with, behind the white space. -/
theorem exists_lead (text : Text) (h : ¬(text.dropWhile isSpTab).isEmpty = true) :
    ∃ c rest, text.dropWhile isSpTab = c :: rest ∧ isSpTab c = false := by
  cases htext : text.dropWhile isSpTab with
  | nil => simp [htext] at h
  | cons c rest =>
    have hhead := List.head?_dropWhile_not (p := isSpTab) text
    rw [htext] at hhead
    exact ⟨c, rest, rfl, by simpa using hhead⟩

theorem items_appends (hr : r.Valid) (m depth : Nat) {values : List Value}
    (hvalues : ∀ value ∈ values, value.Sound depth) (j : Nat) :
    Appends (r.items m values j)
      (fun result reads => (∀ value ∈ result.1, value.Sound depth) ∧ r.Reads j result.2 reads ∧
        (r.ItemAt m j → j < result.2)) (Allowed deep) := by
  fun_induction Reader.items r m values j with
  | case1 values j hlt line hskip ih =>
    have hread := reads_skip (List.getElem?_eq_getElem hlt) hskip
    refine (ih hvalues).imp fun result reads h => ⟨h.1, hread.append h.2.1, fun hitem => ?_⟩
    exact h.2.1.le
  | case2 values j hlt line hcontent hindent =>
    refine .pure ⟨hvalues, reads_empty, fun hitem => ?_⟩
    obtain ⟨line', hline', -, hindent', -⟩ := hitem
    grind
  | case3 | case5 => exact appends_fail _
  | case4 values j hlt line hcontent hless hmore body hdash =>
    refine .pure ⟨hvalues, reads_empty, fun hitem => ?_⟩
    obtain ⟨line', hline', -, -, hdash'⟩ := hitem
    grind
  | case6 values j hlt line hcontent hless hmore body hdash rest hrest ih =>
    have hline := List.getElem?_eq_getElem hlt
    have hread := reads_line hline (blank_of_content (by simpa using hcontent)) .item
    obtain ⟨c, behind, heq, hc⟩ := exists_lead (body.drop 2) fun hnil =>
      hrest (Bool.or_eq_true_iff.mpr (.inl hnil))
    have hclean : Clean (c :: behind) := heq ▸ (hr.clean line (List.getElem_mem hlt)).of_subset fun d hd =>
      List.drop_subset _ _ (List.drop_subset _ _ ((List.dropWhile_sublist _).subset hd))
    refine Appends.bind (Q := fun _ reads => reads = [(j, .item)]) (.write rfl) fun _ reads hreads => ?_
    subst hreads
    show Appends (r.sameLineScalar (List.dropWhile isSpTab (body.drop 2)) false j m >>= _) _ _
    rw [heq]
    refine (sameLineScalar_appends hr hc hclean false hlt m depth).bind fun result more h => ?_
    obtain ⟨value, consumed⟩ := result
    obtain ⟨hvalue, hmore, hconsumed⟩ := h
    obtain rfl : consumed = 0 := hconsumed rfl
    have hvalues' : ∀ value' ∈ values ++ [value], value'.Sound depth :=
      List.forall_mem_append.mpr ⟨hvalues, List.forall_mem_singleton.mpr hvalue⟩
    refine (ih value hvalues').imp fun result rest h => ⟨h.1, ?_, fun _ => h.2.1.le⟩
    exact hread.append (hmore.append h.2.1)
  | case7 values j hlt =>
    refine .pure ⟨hvalues, reads_empty, fun hitem => ?_⟩
    obtain ⟨line, hline, -⟩ := hitem
    exact absurd (List.getElem?_eq_some_iff.mp hline).1 hlt

/-- What a nested collection yields: a value so deep, and the lines up to where its
caller goes on. -/
def Reader.Yields (r : Reader) (depth i : Nat) (result : Value × Nat) (reads : Log) : Prop :=
  result.1.Sound (65 - depth) ∧ r.Reads i (i + result.2 + 1) reads

theorem checkDepth_appends (depth : Nat) :
    Appends (checkDepth depth) (fun _ reads => reads = [] ∧ depth ≤ 64) (Allowed deep) := by
  exact .ite (fun _ => appends_fail _) fun h => .pure ⟨rfl, Nat.le_of_not_lt h⟩

/-- A sequence. -/
theorem sequence_appends (hr : r.Valid) {i m : Nat} (hitem : r.ItemAt m i) (depth : Nat) :
    Appends (r.sequence i m depth) (r.Yields depth i) (Allowed deep) := by
  unfold Reader.sequence
  refine (checkDepth_appends depth).bind fun _ reads h => ?_
  obtain ⟨rfl, hdepth⟩ := h
  refine (items_appends hr m (64 - depth) (List.forall_mem_nil _) i).bind fun result reads h => ?_
  obtain ⟨values, j⟩ := result
  obtain ⟨hvalues, hreads, hpast⟩ := h
  have hlt : i < j := hpast hitem
  have hstop : i + (j - 1 - i) + 1 = j := by omega
  have hdeep : 65 - depth = 64 - depth + 1 := by omega
  refine .pure ⟨?_, ?_⟩
  · rw [hdeep]
    exact .list hvalues
  · show r.Reads i (i + (j - 1 - i) + 1) ([] ++ (reads ++ []))
    rw [hstop]
    simpa using hreads

/-! ## Mappings -/

theorem find?_not_eq_getElem? {α : Type} (p : α → Bool) (xs : List α) :
    (xs.find? fun x => !p x) = xs[(xs.takeWhile p).length]? := by
  induction xs with
  | nil => rfl
  | cons x xs ih =>
    by_cases hx : p x = true
    · simp [hx, ih]
    · simp [hx]

/-- The next line with content is behind those without. -/
theorem nextContentIndent_cases (r : Reader) (start : Nat) :
    r.nextContentIndent start = -1 ∨
      ∃ line, r.lines[start + ((r.lines.drop start).takeWhile blankOrComment).length]? = some line ∧
        blankOrComment line = false ∧ r.nextContentIndent start = indent line := by
  unfold Reader.nextContentIndent
  cases hfind : (r.lines.drop start).find? fun line => !blankOrComment line with
  | none => exact .inl rfl
  | some line =>
    have hcontent := List.find?_some hfind
    rw [find?_not_eq_getElem?, List.getElem?_drop] at hfind
    exact .inr ⟨line, hfind, by simpa using hcontent, rfl⟩

/-- The lines without content behind a line. -/
theorem reads_blanks (r : Reader) (start : Nat) :
    r.Reads start (start + ((r.lines.drop start).takeWhile blankOrComment).length) [] := by
  refine Covers.nil (Nat.le_add_right _ _) fun k hk hk' hcontent => ?_
  obtain ⟨line, hline, hcontent⟩ := hcontent
  obtain ⟨i, rfl⟩ := Nat.exists_eq_add_of_le hk
  have hi : i < ((r.lines.drop start).takeWhile blankOrComment).length := by omega
  have hprefix := List.takeWhile_prefix (fun line => blankOrComment line) (l := r.lines.drop start)
  have hget : ((r.lines.drop start).takeWhile blankOrComment)[i] = line := by
    have := hprefix.getElem hi
    rw [this]
    grind
  have hskip := List.mem_takeWhile_imp (List.getElem_mem hi)
  rw [hget, hcontent] at hskip
  cases hskip

theorem lookAt_appends {condition : Bool} {k : Nat} {test : Text → Bool} {line : Text}
    (hline : condition = true → r.lines[k]? = some line) :
    Appends (r.lookAt condition k test)
      (fun found reads => reads = [] ∧ (found = true → condition = true ∧ test line = true)) (Allowed deep) := by
  refine .ite (fun hcondition => ?_) fun hcondition => .pure ⟨rfl, fun h => by cases h⟩
  refine (appends_item (Q := fun x reads => x = line ∧ reads = []) (hline hcondition) ⟨rfl, rfl⟩).bind
    fun x reads hx => ?_
  obtain ⟨rfl, rfl⟩ := hx
  exact .pure ⟨rfl, fun htest => ⟨hcondition, htest⟩⟩

/-- The value of an entry without one on its line. -/
theorem following_appends (hr : r.Valid) {nested : Nat → Nat → Nat → Read (Value × Nat)} {depth : Nat}
    (hnested : ∀ k n, r.IndentedAt n k → Appends (nested k n (depth + 1)) (r.Yields (depth + 1) k) (Allowed deep))
    (j n : Nat) :
    Appends (r.following nested j n depth)
      (fun result reads => result.1.Sound (64 - depth) ∧ r.Reads (j + 1) (j + result.2 + 1) reads) (Allowed deep) := by
  unfold Reader.following
  have hblanks := reads_blanks r (j + 1)
  have hcases := nextContentIndent_cases r (j + 1)
  generalize j + 1 + ((r.lines.drop (j + 1)).takeWhile blankOrComment).length = k at hblanks hcases ⊢
  generalize r.nextContentIndent (j + 1) = nxt at hcases ⊢
  -- where the program looks at the line there is one
  obtain ⟨line, hline⟩ : ∃ line, nxt ≠ -1 →
      r.lines[k]? = some line ∧ blankOrComment line = false ∧ nxt = indent line := by
    cases hcases with
    | inl hnone => exact ⟨[], fun h => absurd hnone h⟩
    | inr hsome =>
      obtain ⟨line, hline⟩ := hsome
      exact ⟨line, fun _ => hline⟩
  have hreturn (program : Read (Value × Nat)) (h : Appends program (r.Yields (depth + 1) k) (Allowed deep)) :
      Appends (program >>= fun result => pure (result.1, result.2 + (k - j)))
        (fun result reads => result.1.Sound (64 - depth) ∧ r.Reads (j + 1) (j + result.2 + 1) reads)
        (Allowed deep) := by
    refine h.bind fun result reads hresult => ?_
    obtain ⟨hvalue, hreads⟩ := hresult
    have hle : j + 1 ≤ k := hblanks.le
    have hstop : j + (result.2 + (k - j)) + 1 = k + result.2 + 1 := by omega
    have hdeep : 64 - depth = 65 - (depth + 1) := by omega
    refine .pure ⟨hdeep ▸ hvalue, ?_⟩
    show r.Reads (j + 1) (j + (result.2 + (k - j)) + 1) (reads ++ [])
    rw [hstop, List.append_nil]
    exact hblanks.append hreads
  refine (lookAt_appends fun h => (hline (by grind)).1).bind fun isEntry reads h => ?_
  obtain ⟨rfl, hentry⟩ := h
  refine .ite (fun htrue => ?_) fun _ => ?_
  · obtain ⟨hget, hcontent, hindent⟩ := hline (by grind)
    exact hreturn _ (hnested k nxt.toNat ⟨line, hget, hcontent, by omega⟩)
  refine (lookAt_appends fun h => (hline (by grind)).1).bind fun isItem reads h => ?_
  obtain ⟨rfl, hitem⟩ := h
  refine .ite (fun htrue => ?_) fun _ => .ite (fun _ => appends_fail _) fun _ => .pure ⟨.null, reads_empty⟩
  obtain ⟨hget, hcontent, hindent⟩ := hline (by grind)
  exact hreturn _ (sequence_appends hr ⟨line, hget, hcontent, by omega, (hitem htrue).2⟩ (depth + 1))

/-- One entry, on a line that has content. -/
theorem entry_appends (hr : r.Valid) {nested : Nat → Nat → Nat → Read (Value × Nat)} {depth : Nat}
    (hnested : ∀ k n, r.IndentedAt n k → Appends (nested k n (depth + 1)) (r.Yields (depth + 1) k) (Allowed deep))
    (n : Nat) (entries : List (Text × Value)) {j : Nat} {line : Text} (hline : r.lines[j]? = some line)
    (hcontent : blankOrComment line = false) :
    Appends (r.entry nested n depth entries j line)
      (fun result reads => ((isKey result.1 = true ∧ result.1 ∉ reservedKeys) ∧ result.1 ∉ entries.map (·.1)) ∧
        result.2.1.Sound (64 - depth) ∧ r.Reads j (j + result.2.2 + 1) reads) (Allowed deep) := by
  unfold Reader.entry
  dsimp only
  cases hmatch : matchEntry (line.drop n) with
  | none => exact appends_fail _
  | some key =>
    refine .ite (fun _ => appends_fail_bind _) fun hkey => .ite (fun _ => appends_fail_bind _) fun hnew => ?_
    refine .ite (fun _ => appends_fail_bind _) fun _ => ?_
    have hkey' : isKey key = true ∧ key ∉ reservedKeys := by simpa using hkey
    have hnew' : key ∉ entries.map (·.1) := fun hmem => by
      obtain ⟨entry, hentry, rfl⟩ := List.mem_map.mp hmem
      exact hnew (List.any_eq_true.mpr ⟨entry, hentry, beq_self_eq_true _⟩)
    have hread := reads_line hline (blank_of_content hcontent) .entry
    have hlt : j < r.lines.length := (List.getElem?_eq_some_iff.mp hline).1
    have hclean : Clean (((line.drop n).drop (key.length + 1)).dropWhile isSpTab) :=
      (hr.clean line (List.mem_of_getElem? hline)).of_subset fun c hc =>
        List.drop_subset _ _ (List.drop_subset _ _ ((List.dropWhile_sublist _).subset hc))
    have hreturn (program : Read (Value × Nat))
        (h : Appends program (fun result reads => result.1.Sound (64 - depth) ∧
          r.Reads (j + 1) (j + result.2 + 1) reads) (Allowed deep)) :
        Appends (program >>= fun result => pure (key, result.1, result.2))
          (fun result more => ((isKey result.1 = true ∧ result.1 ∉ reservedKeys) ∧ result.1 ∉ entries.map (·.1)) ∧
            result.2.1.Sound (64 - depth) ∧ r.Reads j (j + result.2.2 + 1) ([(j, .entry)] ++ more)) (Allowed deep) := by
      refine h.bind fun result reads hresult => ?_
      refine .pure ⟨⟨hkey', hnew'⟩, hresult.1, ?_⟩
      rw [List.append_nil]
      exact hread.append hresult.2
    refine Appends.bind (Q := fun _ reads => reads = [(j, .entry)]) (.write rfl) fun _ reads hreads => ?_
    subst hreads
    refine .ite (fun _ => hreturn _ (following_appends hr hnested j n)) fun hrest => ?_
    refine .ite (fun _ => hreturn _ (blockScalar_appends hr _ j n _)) fun _ => hreturn _ ?_
    obtain ⟨c, rest, heq, hc⟩ := exists_lead ((line.drop n).drop (key.length + 1)) fun hnil =>
      hrest (Bool.or_eq_true_iff.mpr (.inl hnil))
    rw [heq] at hclean ⊢
    exact (sameLineScalar_appends hr hc hclean true hlt n _).imp fun result reads h => ⟨h.1, h.2.1⟩

/-- What is between the braces: entries of a mapping read so far. -/
structure SoundEntries (depth : Nat) (entries : List (Text × Value)) : Prop where
  keys : ∀ entry ∈ entries, isKey entry.1 = true ∧ entry.1 ∉ reservedKeys
  nodup : (entries.map (·.1)).Nodup
  values : ∀ entry ∈ entries, entry.2.Sound depth

theorem entriesFrom_appends (hr : r.Valid) {nested : Nat → Nat → Nat → Read (Value × Nat)} {depth : Nat}
    (hnested : ∀ k n, r.IndentedAt n k → Appends (nested k n (depth + 1)) (r.Yields (depth + 1) k) (Allowed deep))
    (n : Nat) {entries : List (Text × Value)} (hentries : SoundEntries (64 - depth) entries) (j : Nat) :
    Appends (r.entriesFrom nested n depth entries j)
      (fun result reads => SoundEntries (64 - depth) result.1 ∧ r.Reads j result.2 reads ∧
        (r.IndentedAt n j → j < result.2) ∧ (n = 0 → r.lines.length ≤ result.2)) (Allowed deep) := by
  fun_induction Reader.entriesFrom r nested n depth entries j with
  | case1 entries j hlt line hskip ih =>
    have hread := reads_skip (List.getElem?_eq_getElem hlt) hskip
    exact (ih hentries).imp fun result reads h => ⟨h.1, hread.append h.2.1, fun _ => h.2.1.le, h.2.2.2⟩
  | case2 entries j hlt line hcontent hindent =>
    refine .pure ⟨hentries, reads_empty, fun hat => ?_, fun hzero => by omega⟩
    obtain ⟨line', hline', -, hindent'⟩ := hat
    grind
  | case3 => exact appends_fail _
  | case4 entries j hlt line hcontent hless hmore ih =>
    refine (entry_appends hr hnested n entries (List.getElem?_eq_getElem hlt) (by simpa using hcontent)).bind
      fun result reads h => ?_
    obtain ⟨key, value, consumed⟩ := result
    obtain ⟨⟨hkey, hnew⟩, hvalue, hreads⟩ := h
    have hentries' : SoundEntries (64 - depth) (entries ++ [(key, value)]) := {
      keys := List.forall_mem_append.mpr ⟨hentries.keys, List.forall_mem_singleton.mpr hkey⟩
      nodup := by
        rw [List.map_append]
        exact hentries.nodup.append (List.nodup_singleton _) (by simpa using hnew)
      values := List.forall_mem_append.mpr ⟨hentries.values, List.forall_mem_singleton.mpr hvalue⟩ }
    refine (ih key value consumed hentries').imp fun result more h => ?_
    have hle : j + consumed + 1 ≤ result.2 := h.2.1.le
    exact ⟨h.1, hreads.append h.2.1, fun _ => by omega, h.2.2.2⟩
  | case5 entries j hlt =>
    refine .pure ⟨hentries, reads_empty, fun hat => ?_, fun _ => Nat.le_of_not_lt hlt⟩
    obtain ⟨line, hline, -⟩ := hat
    exact absurd (List.getElem?_eq_some_iff.mp hline).1 hlt

/-- A mapping; it ends at the end of the text where it is not indented. -/
theorem mapping_appends (hr : r.Valid) {calls i n depth : Nat} (hat : r.IndentedAt n i)
    (hcalls : (depth ≤ 65 ∧ 66 ≤ calls + depth) ∨ deep) :
    Appends (r.mapping calls i n depth)
      (fun result reads => r.Yields depth i result reads ∧ (∃ entries, result.1 = .dict entries) ∧
        (n = 0 → r.lines.length ≤ i + result.2 + 1)) (Allowed deep) := by
  induction calls generalizing i n depth with
  | zero => exact .throw (hcalls.resolve_left (by omega))
  | succ calls ih =>
    unfold Reader.mapping
    refine (checkDepth_appends depth).bind fun _ reads h => ?_
    obtain ⟨rfl, hchecked⟩ := h
    have hnested (k m : Nat) (hk : r.IndentedAt m k) :
        Appends (r.mapping calls k m (depth + 1)) (r.Yields (depth + 1) k) (Allowed deep) :=
      (ih hk (hcalls.imp_left fun h => by omega)).imp fun result reads h => h.1
    have hempty : SoundEntries (64 - depth) [] := {
      keys := List.forall_mem_nil _
      nodup := List.nodup_nil
      values := List.forall_mem_nil _ }
    refine (entriesFrom_appends hr hnested n hempty i).bind fun result reads h => ?_
    obtain ⟨entries, j⟩ := result
    obtain ⟨hentries, hreads, hpast, hend⟩ := h
    have hlt : i < j := hpast hat
    have hstop : i + (j - 1 - i) + 1 = j := by omega
    have hdeep : 65 - depth = 64 - depth + 1 := by omega
    refine .pure ⟨⟨?_, ?_⟩, ⟨entries, rfl⟩, fun hzero => hstop.symm ▸ hend hzero⟩
    · rw [hdeep]
      exact .dict hentries.keys hentries.nodup hentries.values
    · show r.Reads i (i + (j - 1 - i) + 1) ([] ++ (reads ++ []))
      rw [hstop]
      simpa using hreads

/-! ## The whole -/

theorem init_appends (deep : Prop) (text : Text) :
    Appends (Reader.init text) (fun r reads => r.Valid ∧ reads = []) (Allowed deep) := by
  unfold Reader.init
  dsimp only
  refine .ite (fun _ => appends_fail_bind _) fun hforbidden => .ite (fun _ => appends_fail_bind _) fun htab => ?_
  have hclean : Clean text := by simpa [Clean] using hforbidden
  refine .pure ⟨⟨fun line hline => ?_, fun line hline => ?_⟩, rfl⟩
  · have hsplit : line ∈ text.splitOn 0x0A := by
      dsimp only at hline
      split at hline
      · exact List.dropLast_subset _ hline
      · exact hline
    exact hclean.of_subset (SplitOn.subset_of_mem_splitOn hsplit)
  · exact fun h => htab (List.any_eq_true.mpr ⟨line, hline, by simp [h]⟩)

/-- The mapping of a document, and the lines of the whole text. -/
theorem document_appends (hr : r.Valid) {stack : Nat} (hstack : 65 ≤ stack ∨ deep) :
    Appends (r.document stack)
      (fun value reads => (∃ entries, value = .dict entries) ∧ value.Sound 64 ∧ r.Reads 0 r.lines.length reads)
      (Allowed deep) := by
  unfold Reader.document
  dsimp only
  have hblanks : r.Reads 0 (r.lines.takeWhile blankOrComment).length [] := by
    have := reads_blanks r 0
    rwa [List.drop_zero, Nat.zero_add] at this
  have hle : (r.lines.takeWhile blankOrComment).length ≤ r.lines.length := (List.takeWhile_sublist _).length_le
  refine .ite (fun hall => ?_) fun hall => ?_
  · have hempty : Value.Sound 64 (.dict []) := .dict (List.forall_mem_nil _) List.nodup_nil (List.forall_mem_nil _)
    exact .pure ⟨⟨[], rfl⟩, hempty, hall ▸ hblanks⟩
  · have hlt : (r.lines.takeWhile blankOrComment).length < r.lines.length := by omega
    generalize hk : (r.lines.takeWhile blankOrComment).length = k at hblanks hlt ⊢
    have hcontent : blankOrComment r.lines[k] = false := by
      have hfind := find?_not_eq_getElem? blankOrComment r.lines
      rw [hk, List.getElem?_eq_getElem hlt] at hfind
      simpa using List.find?_some hfind
    refine (appends_item (Q := fun line reads => line = r.lines[k] ∧ reads = []) (List.getElem?_eq_getElem hlt)
      ⟨rfl, rfl⟩).bind fun line reads h => ?_
    obtain ⟨rfl, rfl⟩ := h
    refine .ite (fun _ => appends_fail_bind _) fun hindent => ?_
    have hat : r.IndentedAt 0 k := ⟨_, List.getElem?_eq_getElem hlt, hcontent, not_not.mp hindent⟩
    refine (mapping_appends hr hat (hstack.imp_left fun h => by omega)).bind fun result reads h => ?_
    obtain ⟨⟨hvalue, hreads⟩, ⟨entries, hentries⟩, hend⟩ := h
    obtain ⟨value, consumed⟩ := result
    obtain rfl : value = .dict entries := hentries
    refine .pure ⟨⟨entries, rfl⟩, hvalue, ?_⟩
    have htrim : r.Reads k r.lines.length reads := hreads.trim hlt.le (hend rfl) fun line hline _ htext => by
      obtain ⟨text, htext, -⟩ := htext
      exact absurd (List.getElem?_eq_some_iff.mp htext).1 (Nat.not_lt_of_le hline)
    simpa using hblanks.append htrim

/-- `_Reader(text)`. -/
def IsReader (text : Text) (r : Reader) : Prop := (Program.exec (Reader.init text) []).1 = .ok r

theorem IsReader.valid {text : Text} (h : IsReader text r) : r.Valid := by
  have hinit := (init_appends False text).ends
  unfold IsReader at h
  generalize Program.exec (Reader.init text) [] = ended at h hinit
  obtain ⟨result, log⟩ := ended
  obtain rfl : result = .ok r := h
  exact hinit.1

/-- What comes of a text: a dictionary, with every line of content read once and in order. -/
def IsDocument (text : Text) (value : Value) (reads : Log) : Prop :=
  (∃ entries, value = .dict entries) ∧ value.Sound 64 ∧
    ∃ r, IsReader text r ∧ (∀ k, r.ContentAt k → (reads.map (·.1)).count k = 1) ∧ (reads.map (·.1)).Pairwise (· < ·)

theorem read_ends (stack : Nat) (text : Text) :
    Program.Ends (IsDocument text) (fun e _ => Allowed (stack < 65) e) (Program.exec (read stack text) []) := by
  unfold read
  rw [Program.exec_bind]
  have hinit := (init_appends (stack < 65) text).ends
  cases hexec : Program.exec (Reader.init text) [] with
  | mk result log =>
    rw [hexec] at hinit
    cases result with
    | error e => exact hinit
    | ok r =>
      obtain ⟨hr, rfl⟩ := hinit
      refine (document_appends hr (by omega)).ends.mono (fun value reads h => ?_) fun e _ he => he
      obtain ⟨hdict, hsound, hreads⟩ := h
      refine ⟨hdict, hsound, r, by rw [IsReader, hexec], fun k hk => ?_, hreads.increasing⟩
      obtain ⟨line, hline, hcontent⟩ := hk
      exact hreads.count_eq_one (Nat.zero_le k) (List.getElem?_eq_some_iff.mp hline).1 ⟨line, hline, hcontent⟩

end

/-- `read_subset` yields a mapping of the subset or raises a `FrontmatterError`.

Where the stack is enough for 65 calls, no handler for a recursion error is needed.  In
a mapping, the line that follows an entry is behind all lines read for it, and
every line of content up to there is read for it, once and in order. -/
theorem read_subset_safe (stack : Nat) (text : Text) :
    Program.Ends (IsDocument text) (fun e _ => ∃ message, e = .frontmatterError message)
      (Program.exec (readSubset stack text) []) ∧
    (65 ≤ stack → Program.exec (readSubset stack text) [] = Program.exec (read stack text) []) ∧
    ∀ r, IsReader text r → ∀ calls n depth entries j line, r.lines[j]? = some line → blankOrComment line = false →
      Appends (r.entry (r.mapping calls) n depth entries j line)
        (fun result reads => r.Reads j (j + result.2.2 + 1) reads) (Allowed (calls + depth < 65 ∨ 64 < depth)) := by
  have hends := read_ends stack text
  unfold readSubset
  rw [Program.exec_tryCatch]
  refine ⟨?_, fun hstack => ?_, fun r hr calls n depth entries j line hline hcontent => ?_⟩
  · generalize Program.exec (read stack text) [] = ended at hends
    obtain ⟨result, log⟩ := ended
    cases result with
    | ok value => exact hends
    | error e =>
      cases e with
      | frontmatterError message => exact ⟨message, rfl⟩
      | indexError => exact hends.elim
      | assertionError => exact hends.elim
      | recursionError => exact ⟨_, rfl⟩
  · generalize Program.exec (read stack text) [] = ended at hends
    obtain ⟨result, log⟩ := ended
    cases result with
    | ok value => rfl
    | error e =>
      cases e with
      | recursionError => exact absurd hends (Nat.not_lt_of_le hstack)
      | _ => rfl
  · have hnested (k m : Nat) (hk : r.IndentedAt m k) :
        Appends (r.mapping calls k m (depth + 1)) (r.Yields (depth + 1) k)
          (Allowed (calls + depth < 65 ∨ 64 < depth)) :=
      (mapping_appends hr.valid hk (by omega)).imp fun result reads h => h.1
    exact (entry_appends hr.valid hnested n entries hline hcontent).imp fun result reads h => h.2.2

end MinionAgent.Frontmatter
