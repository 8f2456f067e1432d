import MinionAgent.Library.Surrogates
import MinionAgent.Tools.EditGroups

/-!
# MinionAgent.Tools.EditFile

The file that an edit writes (`tools/builtin/edit.py`), and the lines of the file
that it leaves alone.

* `fileLines` — the lines of a file, whatever ends them;
* `linesWithEndings_normalizeToLf` — the lines of the text in which edits match;
* `editFile_keeps` — every line that no edit touches is written as it was, with
  the line ending that was found for the file.
-/

namespace MinionAgent

open Rfc8259 (CodePoint codePoint)

namespace Edit

open Splice (Region Ordered Touched Preserved)

/-! ## The file -/

/-- `to_units`. -/
def unitsOfText (text : List Char) : Units := Utf16.toUnits (text.map codePointOf)

/-- `encode_utf8`, behind `from_units`. -/
def encodeUnits (units : Units) : List UInt8 :=
  (decode16 (Utf16.toUnits (decode16 units))).flatMap fun c =>
    String.utf8EncodeChar ((scalar? c).getD Utf8Decoder.replacement)

/-- The bytes that `execute` writes for those that it read. -/
def editFile (nfkc : Units → Units) (data : List UInt8) (edits : List (Units × Units)) :
    Except EditError (List UInt8) :=
  let raw := unitsOfText (decodeUtf8 data)
  let (bom, content) := splitBom raw
  let ending := detectLineEnding content
  match applyEdits nfkc (normalizeToLf content) edits with
  | .error e => .error e
  | .ok (_, new) => .ok (encodeUnits (bom ++ restoreLineEndings new ending))

/-! ## Its lines -/

/-- A character at the front of a line. -/
def beginLine (c : Char) : List (List Char × List Char) → List (List Char × List Char)
  | [] => [([c], [])]
  | (line, terminator) :: lines => (c :: line, terminator) :: lines

/-- The lines of a text, each with the LF, CR LF or CR that ends it. -/
def fileLines : List Char → List (List Char × List Char)
  | [] => []
  | '\r' :: '\n' :: text => ([], ['\r', '\n']) :: fileLines text
  | '\r' :: text => ([], ['\r']) :: fileLines text
  | '\n' :: text => ([], ['\n']) :: fileLines text
  | c :: text => beginLine c (fileLines text)

theorem fileLines_cr {text : List Char} (h : text.head? ≠ some '\n') :
    fileLines ('\r' :: text) = ([], ['\r']) :: fileLines text := by
  rw [fileLines]
  rintro rest rfl
  exact h rfl

theorem fileLines_other {c : Char} (hcr : c ≠ '\r') (hlf : c ≠ '\n') (text : List Char) :
    fileLines (c :: text) = beginLine c (fileLines text) := by
  rw [fileLines]
  · rintro rest rfl
    exact absurd rfl hcr
  · exact hcr
  · exact hlf

/-- The file is its lines. -/
theorem flatten_fileLines (text : List Char) : (fileLines text).flatMap (fun line => line.1 ++ line.2) = text := by
  induction text using fileLines.induct with
  | case1 => rfl
  | case2 text ih => simpa [fileLines] using ih
  | case3 text h ih =>
    rw [fileLines_cr fun hhead => by obtain ⟨rest, rfl⟩ := List.head?_eq_some_iff.mp hhead; exact h rest rfl]
    simpa using ih
  | case4 text ih => simpa [fileLines] using ih
  | case5 c text _ hcr hlf ih =>
    rw [fileLines_other hcr hlf]
    cases hlines : fileLines text with
    | nil => simpa [beginLine, hlines] using ih
    | cons line lines => simpa [beginLine, hlines] using ih

/-! ## The units of the lines -/

/-- A unit that is no surrogate is the code point it is of. -/
theorem val_of_mem_unitsOf {c : CodePoint} {u : UInt16} (hu : u ∈ Utf16.unitsOf c)
    (hlt : u.toNat < 0xD800 ∨ 0xE000 ≤ u.toNat) : c.val = u.toNat := by
  have hc := c.isLt
  rw [Utf16.unitsOf] at hu
  split at hu
  · next hbmp =>
    obtain rfl := List.mem_singleton.mp hu
    exact (toNat_toUInt16 hbmp).symm
  · exfalso
    rcases List.mem_cons.mp hu with rfl | hu
    · rw [toNat_toUInt16 (by omega)] at hlt
      omega
    · obtain rfl := List.mem_singleton.mp hu
      rw [toNat_toUInt16 (by omega)] at hlt
      omega

theorem unitsOf_ne_nil (c : CodePoint) : Utf16.unitsOf c ≠ [] := by
  rw [Utf16.unitsOf]
  split <;> simp

theorem unitsOfText_cons (c : Char) (text : List Char) :
    unitsOfText (c :: text) = Utf16.unitsOf (codePointOf c) ++ unitsOfText text := rfl

/-- Another character has no unit that is no surrogate in common. -/
theorem unitsOf_ne {c : Char} {u : UInt16} (hu : u ∈ Utf16.unitsOf (codePointOf c)) {k : UInt16}
    (hk : k.toNat < 0xD800 ∨ 0xE000 ≤ k.toNat) (hc : c.toNat ≠ k.toNat) : u ≠ k := by
  rintro rfl
  exact hc (val_of_mem_unitsOf hu hk)

theorem toNat_ne_of_ne {c : Char} {k : Nat} (h : c ≠ Char.ofNat k) : c.toNat ≠ k := by
  intro heq
  refine h ?_
  rw [← heq, Char.ofNat_toNat]

theorem normalizeLfUnits_append {front : Units} (hfront : ∀ u ∈ front, u ≠ 13) (text : Units) :
    normalizeLfUnits (front ++ text) = front ++ normalizeLfUnits text := by
  induction front with
  | nil => rfl
  | cons u front ih =>
    obtain ⟨hu, hrest⟩ := List.forall_mem_cons.mp hfront
    rw [List.cons_append, normalizeLfUnits_other hu, ih hrest]
    rfl

theorem linesWithEndings_append {front : Units} (hne : front ≠ []) (hfront : ∀ u ∈ front, u ≠ 10) (content : Units) :
    linesWithEndings (front ++ content) =
      match linesWithEndings content with
      | [] => [front]
      | line :: lines => (front ++ line) :: lines := by
  induction front with
  | nil => exact absurd rfl hne
  | cons u front ih =>
    obtain ⟨hu, hrest⟩ := List.forall_mem_cons.mp hfront
    rw [List.cons_append, linesWithEndings, if_neg hu]
    cases front with
    | nil => rfl
    | cons u' front =>
      rw [ih (by simp) hrest]
      cases linesWithEndings content <;> rfl

/-- The lines in which edits match are those of the file, each ended by LF. -/
theorem linesWithEndings_normalizeToLf (text : List Char) :
    linesWithEndings (normalizeToLf (unitsOfText text)) =
      (fileLines text).map fun line => unitsOfText line.1 ++ if line.2 = [] then [] else [10] := by
  rw [normalizeToLf_eq]
  induction text using fileLines.induct with
  | case1 => rfl
  | case2 text ih =>
    have hunits : unitsOfText ('\r' :: '\n' :: text) = 13 :: 10 :: unitsOfText text := rfl
    rw [hunits, normalizeLfUnits, linesWithEndings, if_pos rfl, ih]
    simp [fileLines, unitsOfText, Utf16.toUnits]
  | case3 text h ih =>
    have hunits : unitsOfText ('\r' :: text) = 13 :: unitsOfText text := rfl
    have hhead : text.head? ≠ some '\n' := by
      intro hhead
      obtain ⟨rest, rfl⟩ := List.head?_eq_some_iff.mp hhead
      exact h rest rfl
    have hunitsHead : (unitsOfText text).head? ≠ some 10 := by
      cases text with
      | nil => simp [unitsOfText, Utf16.toUnits]
      | cons c text =>
        obtain ⟨u, units, hunits⟩ := List.exists_cons_of_ne_nil (unitsOf_ne_nil (codePointOf c))
        have hc : c ≠ Char.ofNat 10 := by simpa using hhead
        have hu : u ≠ 10 := unitsOf_ne (hunits ▸ List.mem_cons_self ..) (by decide) (toNat_ne_of_ne hc)
        simpa [unitsOfText_cons, hunits] using hu
    rw [hunits, normalizeLfUnits_cr hunitsHead, linesWithEndings, if_pos rfl, ih, fileLines_cr hhead]
    simp [unitsOfText, Utf16.toUnits]
  | case4 text ih =>
    have hunits : unitsOfText ('\n' :: text) = 10 :: unitsOfText text := rfl
    rw [hunits, normalizeLfUnits_other (by decide), linesWithEndings, if_pos rfl, ih]
    simp [fileLines, unitsOfText, Utf16.toUnits]
  | case5 c text _ hcr hlf ih =>
    have hne {k : UInt16} (hk : k.toNat < 0xD800 ∨ 0xE000 ≤ k.toNat) (hc : c ≠ Char.ofNat k.toNat) :
        ∀ u ∈ Utf16.unitsOf (codePointOf c), u ≠ k := fun u hu => unitsOf_ne hu hk (toNat_ne_of_ne hc)
    rw [unitsOfText_cons, normalizeLfUnits_append (hne (by decide) hcr),
      linesWithEndings_append (unitsOf_ne_nil _) (hne (by decide) hlf), ih, fileLines_other hcr hlf]
    cases fileLines text with
    | nil => simp [beginLine, unitsOfText, Utf16.toUnits]
    | cons line lines => simp [beginLine, unitsOfText, Utf16.toUnits]

/-! ## What is written -/

/-- The characters of a line ending. -/
def endingText (ending : Units) : List Char := ending.map fun u => Char.ofNat u.toNat

/-- A line, with the line ending of the file if it is ended. -/
def restoredLine (ending : Units) (line : List Char × List Char) : List Char :=
  line.1 ++ if line.2 = [] then [] else endingText ending

theorem detectLineEnding_cases (content : Units) :
    detectLineEnding content = [13, 10] ∨ detectLineEnding content = [10] := by
  rw [detectLineEnding]
  split
  · split <;> simp
  · simp

/-- Each LF becomes the line ending. -/
theorem restoreLineEndings_eq (text content : Units) :
    restoreLineEndings text (detectLineEnding content) =
      text.flatMap fun u => if u = 10 then detectLineEnding content else [u] := by
  rcases detectLineEnding_cases content with h | h
  · rw [h, restoreLineEndings, if_pos rfl, Replace.replace_singleton]
  · rw [h, restoreLineEndings, if_neg (by decide)]
    have hself : (fun u : UInt16 => if u = 10 then [10] else [u]) = fun u => [u] := by
      funext u
      split
      · next hu => rw [hu]
      · rfl
    rw [hself, List.flatMap_singleton']

theorem lf_notMem_fileLines (text : List Char) : ∀ line ∈ fileLines text, '\n' ∉ line.1 := by
  induction text using fileLines.induct with
  | case1 => simp [fileLines]
  | case2 text ih => simpa [fileLines] using ih
  | case3 text h ih =>
    rw [fileLines_cr fun hhead => by obtain ⟨rest, rfl⟩ := List.head?_eq_some_iff.mp hhead; exact h rest rfl]
    simpa using ih
  | case4 text ih => simpa [fileLines] using ih
  | case5 c text _ hcr hlf ih =>
    rw [fileLines_other hcr hlf]
    cases hlines : fileLines text with
    | nil => simpa [beginLine] using Ne.symm hlf
    | cons line lines =>
      rw [hlines] at ih
      obtain ⟨hline, hrest⟩ := List.forall_mem_cons.mp ih
      refine List.forall_mem_cons.mpr ⟨?_, hrest⟩
      simpa [hline] using Ne.symm hlf

theorem lf_notMem_unitsOfText {text : List Char} (h : '\n' ∉ text) : ∀ u ∈ unitsOfText text, u ≠ 10 := by
  induction text with
  | nil => simp [unitsOfText, Utf16.toUnits]
  | cons c text ih =>
    obtain ⟨hc, hrest⟩ : c ≠ '\n' ∧ '\n' ∉ text := by simpa [eq_comm] using h
    intro u hu
    rw [unitsOfText_cons] at hu
    rcases List.mem_append.mp hu with hu | hu
    · exact unitsOf_ne hu (by decide) (toNat_ne_of_ne hc)
    · exact ih hrest u hu

theorem unitsOfText_append (text text' : List Char) :
    unitsOfText (text ++ text') = unitsOfText text ++ unitsOfText text' := by
  simp [unitsOfText, Utf16.toUnits]

/-- A line ended by LF becomes the line with the line ending of the file. -/
theorem restore_line {line : List Char × List Char} (h : '\n' ∉ line.1) (content : Units) :
    ((unitsOfText line.1 ++ if line.2 = [] then [] else [10]).flatMap
        fun u => if u = 10 then detectLineEnding content else [u]) =
      unitsOfText (restoredLine (detectLineEnding content) line) := by
  have hline : (unitsOfText line.1).flatMap (fun u => if u = 10 then detectLineEnding content else [u]) =
      unitsOfText line.1 := by
    have hcongr : (unitsOfText line.1).flatMap (fun u => if u = 10 then detectLineEnding content else [u]) =
        (unitsOfText line.1).flatMap fun u => [u] :=
      List.flatMap_congr fun u hu => if_neg (lf_notMem_unitsOfText h u hu)
    rw [hcongr, List.flatMap_singleton']
  have hending : unitsOfText (endingText (detectLineEnding content)) = detectLineEnding content := by
    rcases detectLineEnding_cases content with h | h <;> rw [h] <;> decide
  rw [List.flatMap_append, hline, restoredLine, unitsOfText_append]
  split
  · rfl
  · rw [hending]
    simp

/-! ## Bytes -/

theorem encodeUnits_eq (units : Units) :
    encodeUnits units =
      (decode16 units).flatMap fun c => String.utf8EncodeChar ((scalar? c).getD Utf8Decoder.replacement) := by
  rw [encodeUnits, toUnits_decode16]

/-- A text is encoded as itself, whatever is behind it. -/
theorem encodeUnits_append (text : List Char) (units : Units) :
    encodeUnits (unitsOfText text ++ units) = encodeUtf8 text ++ encodeUnits units := by
  have htext : (text.map codePointOf).flatMap
      (fun c => String.utf8EncodeChar ((scalar? c).getD Utf8Decoder.replacement)) = encodeUtf8 text := by
    rw [List.flatMap_map]
    refine List.flatMap_congr fun c _ => ?_
    rw [scalar?_codePointOf]
    rfl
  rw [encodeUnits_eq, unitsOfText, decode16_toUnits_append, List.flatMap_append, htext, encodeUnits_eq]

/-- And whatever is before it, when it is not empty. -/
theorem encodeUnits_append_text (front : Units) {text : List Char} (hne : text ≠ []) (units : Units) :
    encodeUnits (front ++ (unitsOfText text ++ units)) =
      encodeUnits front ++ (encodeUtf8 text ++ encodeUnits units) := by
  obtain ⟨c, rest, rfl⟩ := List.exists_cons_of_ne_nil hne
  rw [← encodeUnits_append]
  obtain ⟨u, hu, tail, hunits⟩ : ∃ u : UInt16, (u.toNat < 0xDC00 ∨ 0xE000 ≤ u.toNat) ∧ ∃ tail,
      unitsOfText (c :: rest) ++ units = u :: tail := by
    have hvalid : (codePointOf c).val < 0xD800 ∨
        0xDFFF < (codePointOf c).val ∧ (codePointOf c).val < 0x110000 := c.valid
    rw [unitsOfText_cons, Utf16.unitsOf]
    split
    · next hbmp => exact ⟨_, by rw [toNat_toUInt16 hbmp]; omega, _, rfl⟩
    · exact ⟨_, by rw [toNat_toUInt16 (by omega)]; omega, _, rfl⟩
  rw [hunits, encodeUnits_eq, encodeUnits_eq, encodeUnits_eq, decode16_append_cons front hu, List.flatMap_append]

/-- Lines that are kept among units are kept among their bytes. -/
theorem kept_encodeUnits {marks : List (Option (List Char))} (hne : ∀ text, some text ∈ marks → text ≠ [])
    {units : Units} (h : Preserved (marks.map (Option.map unitsOfText)) units) :
    Preserved (marks.map (Option.map encodeUtf8)) (encodeUnits units) ∧
      ∀ front : Units, Preserved (none :: marks.map (Option.map encodeUtf8)) (encodeUnits (front ++ units)) := by
  induction marks generalizing units with
  | nil =>
    cases h
    refine ⟨Preserved.nil, fun front => ?_⟩
    have hnil := Preserved.nil.change (encodeUnits (front ++ []))
    rwa [List.append_nil] at hnil
  | cons mark marks ih =>
    have hrest := fun text htext => hne text (List.mem_cons_of_mem mark htext)
    cases mark with
    | some text =>
      have htext := hne text (List.mem_cons_self ..)
      cases h with
      | keep h =>
        have hkept := (ih hrest h).1
        refine ⟨?_, fun front => ?_⟩
        · rw [encodeUnits_append]
          exact hkept.keep
        · rw [encodeUnits_append_text front htext]
          exact hkept.keep.change _
    | none =>
      cases h with
      | change new h =>
        refine ⟨(ih hrest h).2 new, fun front => ?_⟩
        rw [← List.append_assoc]
        exact ((ih hrest h).2 (front ++ new)).insert

/-! ## The lines that no edit touches -/

/-- The BOM as a character. -/
def bomChar : Char := Char.ofNat 0xFEFF

/-- A text without the BOM it begins with. -/
def dropBom (text : List Char) : List Char := if text.head? = some bomChar then text.tail else text

theorem splitBom_unitsOfText (text : List Char) :
    splitBom (unitsOfText text) =
      (unitsOfText (if text.head? = some bomChar then [bomChar] else []), unitsOfText (dropBom text)) := by
  cases text with
  | nil => rfl
  | cons c text =>
    by_cases hc : c = bomChar
    · subst hc
      rfl
    · obtain ⟨u, units, hunits⟩ := List.exists_cons_of_ne_nil (unitsOf_ne_nil (codePointOf c))
      have hu : u ≠ bom := unitsOf_ne (hunits ▸ List.mem_cons_self ..) (by decide) (toNat_ne_of_ne hc)
      rw [splitBom, dropBom, unitsOfText_cons, hunits]
      simp [hu, hc, unitsOfText, Utf16.toUnits, hunits]

theorem fileLines_ne_nil (text : List Char) : ∀ line ∈ fileLines text, line.1 ≠ [] ∨ line.2 ≠ [] := by
  induction text using fileLines.induct with
  | case1 => simp [fileLines]
  | case2 text ih => simpa [fileLines] using ih
  | case3 text h ih =>
    rw [fileLines_cr fun hhead => by obtain ⟨rest, rfl⟩ := List.head?_eq_some_iff.mp hhead; exact h rest rfl]
    simpa using ih
  | case4 text ih => simpa [fileLines] using ih
  | case5 c text _ hcr hlf ih =>
    rw [fileLines_other hcr hlf]
    cases hlines : fileLines text with
    | nil => simp [beginLine]
    | cons line lines =>
      rw [hlines] at ih
      exact List.forall_mem_cons.mpr ⟨.inl (by simp), (List.forall_mem_cons.mp ih).2⟩

theorem restoredLine_ne_nil {text : List Char} {line : List Char × List Char} (h : line ∈ fileLines text)
    (content : Units) : restoredLine (detectLineEnding content) line ≠ [] := by
  have hending : endingText (detectLineEnding content) ≠ [] := by
    rcases detectLineEnding_cases content with h | h <;> rw [h] <;> decide
  rw [restoredLine]
  rcases fileLines_ne_nil text line h with hline | hline
  · simp [hline]
  · simp [hline, hending]

variable (nfkc : Units → Units)

/-- The line of the base with this number is touched by a region of the edits. -/
def LineTouched (content : Units) (edits : List (Units × Units)) (i : Nat) : Prop :=
  let base := baseOf nfkc (normalizeToLf content) (normalizedEdits edits)
  Touched (regionsOf nfkc base (normalizedEdits edits)) (lineStart (linesWithEndings base) i)
    (lineStart (linesWithEndings base) (i + 1))

instance (content : Units) (edits : List (Units × Units)) : DecidablePred (LineTouched nfkc content edits) :=
  fun _ => inferInstanceAs (Decidable (Touched ..))

/-- The lines of a file, those whose lines in the base are touched unmarked. -/
def keptFileLines (text : List Char) (edits : List (Units × Units)) : List (Option (List UInt8)) :=
  let content := (splitBom (unitsOfText text)).2
  Splice.keepBy (LineTouched nfkc content edits) 0
    ((fileLines text).map fun line => encodeUtf8 (restoredLine (detectLineEnding content) line))

/-- The lines behind the BOM, among the bytes behind the BOM. -/
theorem kept_restored {text : List Char} {edits : List (Units × Units)} {before new : Units}
    (h : applyEdits nfkc (normalizeToLf (unitsOfText text)) edits = .ok (before, new)) :
    Preserved
      (Splice.keepBy (LineTouched nfkc (unitsOfText text) edits) 0
        ((fileLines text).map fun line => encodeUtf8 (restoredLine (detectLineEnding (unitsOfText text)) line)))
      (encodeUnits (restoreLineEndings new (detectLineEnding (unitsOfText text)))) := by
  have hkept := (kept_applyEdits nfkc h).flatMap
    fun u => if u = 10 then detectLineEnding (unitsOfText text) else [u]
  rw [keptLines, Splice.map_keepBy, linesWithEndings_normalizeToLf, List.map_map, ← restoreLineEndings_eq] at hkept
  have hlines : ((fileLines text).map
      ((·.flatMap fun u => if u = 10 then detectLineEnding (unitsOfText text) else [u]) ∘
        fun line => unitsOfText line.1 ++ if line.2 = [] then [] else [10])) =
      ((fileLines text).map (restoredLine (detectLineEnding (unitsOfText text)))).map unitsOfText := by
    rw [List.map_map]
    exact List.map_congr_left fun line hline => restore_line (lf_notMem_fileLines text line hline) _
  rw [hlines, ← Splice.map_keepBy] at hkept
  have hbytes := (kept_encodeUnits (fun t ht => ?_) hkept).1
  · rw [Splice.map_keepBy, List.map_map] at hbytes
    exact hbytes
  · obtain ⟨line, hline, rfl⟩ := List.mem_map.mp (Splice.mem_of_some_mem_keepBy _ ht)
    exact restoredLine_ne_nil hline _

/-- A BOM before the first line stays with it. -/
theorem kept_beginLine {changes : Nat → Prop} [DecidablePred changes] (ending : Units)
    {lines : List (List Char × List Char)} {bytes : List UInt8}
    (h : Preserved (Splice.keepBy changes 0 (lines.map fun line => encodeUtf8 (restoredLine ending line))) bytes) :
    Preserved
      (Splice.keepBy changes 0 ((beginLine bomChar lines).map fun line => encodeUtf8 (restoredLine ending line)))
      (encodeUtf8 [bomChar] ++ bytes) := by
  cases lines with
  | nil =>
    cases h
    exact Splice.kept_keepBy changes 0 [encodeUtf8 [bomChar]]
  | cons line lines =>
    have hfirst : encodeUtf8 (restoredLine ending (bomChar :: line.1, line.2)) =
        encodeUtf8 [bomChar] ++ encodeUtf8 (restoredLine ending line) := by
      simp [restoredLine, encodeUtf8]
    rw [List.map_cons, Splice.keepBy] at h
    rw [beginLine, List.map_cons, Splice.keepBy, hfirst]
    by_cases hchanges : changes 0
    · rw [if_pos hchanges] at h ⊢
      exact h.prepend _
    · rw [if_neg hchanges] at h ⊢
      cases h with
      | keep h =>
        rw [← List.append_assoc]
        exact h.keep

/-- What an edit writes has come from the lines of the file: every line that no
region touches stays, with the line ending of the file, and so as it was if it
had that one or none. -/
theorem editFile_keeps {text : List Char} {edits : List (Units × Units)} {written : List UInt8}
    (h : editFile nfkc (encodeUtf8 text) edits = .ok written) :
    Preserved (keptFileLines nfkc text edits) written ∧
      (fileLines text).flatMap (fun line => line.1 ++ line.2) = text ∧
      ∀ line ∈ fileLines text,
        line.2 = [] ∨ line.2 = endingText (detectLineEnding (splitBom (unitsOfText text)).2) →
          restoredLine (detectLineEnding (splitBom (unitsOfText text)).2) line = line.1 ++ line.2 := by
  refine ⟨?_, flatten_fileLines text, fun line _ hending => ?_⟩
  · rw [editFile, decodeUtf8_encodeUtf8] at h
    rw [keptFileLines]
    simp only [splitBom_unitsOfText] at h ⊢
    split at h
    · cases h
    · next before new hok =>
      obtain rfl := Except.ok.inj h
      have hkept := kept_restored nfkc hok
      rw [encodeUnits_append]
      cases text with
      | nil => exact hkept
      | cons c rest =>
        by_cases hc : c = bomChar
        · subst hc
          rw [fileLines_other (by decide) (by decide)]
          exact kept_beginLine _ hkept
        · have hdrop : dropBom (c :: rest) = c :: rest := by simp [dropBom, hc]
          rw [hdrop] at hkept ⊢
          simpa [hc, encodeUtf8] using hkept
  · rw [restoredLine]
    split
    · next hnil => rw [hnil]
    · next hne => rw [hending.resolve_left hne]

/-- A file of two lines, of which the first is edited. -/
theorem editFile_keeps_second :
    keptFileLines id ['a', '\n', 'b'] [([97], [120])] = [none, some [98]] ∧
      Preserved (keptFileLines id ['a', '\n', 'b'] [([97], [120])]) [120, 10, 98] :=
  ⟨by decide, (@editFile_keeps id ['a', '\n', 'b'] [([97], [120])] [120, 10, 98] rfl).1⟩

/-- A line that ends in LF is written with CR LF, as the first line of the file
ends. -/
theorem mixed_endings_rewritten :
    editFile id (encodeUtf8 ['a', '\r', '\n', 'b', '\n', 'c', '\r', '\n']) [([99], [100])] =
        .ok [97, 13, 10, 98, 13, 10, 100, 13, 10] ∧
      (fileLines ['a', '\r', '\n', 'b', '\n', 'c', '\r', '\n'])[1]? = some (['b'], ['\n']) ∧
      ¬ LineTouched id (unitsOfText ['a', '\r', '\n', 'b', '\n', 'c', '\r', '\n']) [([99], [100])] 1 ∧
      ¬ encodeUtf8 ['b', '\n'] <:+: [97, 13, 10, 98, 13, 10, 100, 13, 10] :=
  ⟨rfl, rfl, by decide, by decide⟩

end Edit

end MinionAgent
