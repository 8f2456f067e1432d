import MinionAgent.Library.Occurrences
import MinionAgent.Library.Replace
import MinionAgent.Library.SplitOn
import Mathlib.Data.List.DropRight

/-!
# MinionAgent.Tools.EditText

The texts of an edit (`tools/builtin/edit_diff.py`, `edit_text.rs` and
`edit_apply.rs`): BOM, line endings, and the normal form of a fuzzy match.
Every text is a list of UTF-16 units, and NFKC is a parameter.

* `normalizeToLf_eq` — both bindings normalize line endings alike;
* `finishUnits_eq` — and what they do after NFKC;
* `fuzzyNormalize_id` — without NFKC, the normal form of a normal form is itself.
-/

namespace MinionAgent

namespace Edit

/-- A JavaScript string. -/
abbrev Units : Type := List UInt16

/-- `BOM`. -/
def bom : UInt16 := 0xFEFF

/-- `split_bom`. -/
def splitBom (text : Units) : Units × Units := if text.head? = some bom then ([bom], text.tail) else ([], text)

/-- `detect_line_ending`. -/
def detectLineEnding (content : Units) : Units :=
  match Occurrences.find [13, 10] content, Occurrences.find [10] content with
  | some crlf, some lf => if crlf < lf then [13, 10] else [10]
  | _, _ => [10]

/-- `normalize_to_lf`. -/
def normalizeToLf (text : Units) : Units := Replace.replace id [13] [10] (Replace.replace id [13, 10] [10] text)

/-- `restore_line_endings`. -/
def restoreLineEndings (text ending : Units) : Units :=
  if ending = [13, 10] then Replace.replace id [10] [13, 10] text else text

/-- `_JS_WHITESPACE`. -/
def jsWhitespace (u : UInt16) : Bool :=
  [9, 10, 11, 12, 13, 32, 0xA0, 0x1680, 0x2028, 0x2029, 0x202F, 0x205F, 0x3000, 0xFEFF].contains u ||
    (0x2000 ≤ u && u ≤ 0x200A)

/-- `_SINGLE_QUOTES.sub`. -/
def singleQuotes (u : UInt16) : UInt16 := if 0x2018 ≤ u ∧ u ≤ 0x201B then 39 else u

/-- `_DOUBLE_QUOTES.sub`. -/
def doubleQuotes (u : UInt16) : UInt16 := if 0x201C ≤ u ∧ u ≤ 0x201F then 34 else u

/-- `_DASHES.sub`. -/
def dashes (u : UInt16) : UInt16 := if 0x2010 ≤ u ∧ u ≤ 0x2015 ∨ u = 0x2212 then 45 else u

/-- `_SPACES.sub`. -/
def spaces (u : UInt16) : UInt16 :=
  if u = 0xA0 ∨ 0x2002 ≤ u ∧ u ≤ 0x200A ∨ u = 0x202F ∨ u = 0x205F ∨ u = 0x3000 then 32 else u

/-- `fuzzy_normalize`, behind NFKC. -/
def finish (normalized : Units) : Units :=
  let text := List.intercalate [10] ((normalized.splitOn 10).map (List.rdropWhile jsWhitespace))
  (((text.map singleQuotes).map doubleQuotes).map dashes).map spaces

/-- `fuzzy_normalize`. -/
def fuzzyNormalize (nfkc : Units → Units) (units : Units) : Units := finish (nfkc units)

/-! ## Line endings -/

/-- `normalize_lf_units`. -/
def normalizeLfUnits : Units → Units
  | [] => []
  | 13 :: 10 :: text => 10 :: normalizeLfUnits text
  | 13 :: text => 10 :: normalizeLfUnits text
  | u :: text => u :: normalizeLfUnits text

theorem normalizeLfUnits_cr {text : Units} (h : text.head? ≠ some 10) :
    normalizeLfUnits (13 :: text) = 10 :: normalizeLfUnits text := by
  rw [normalizeLfUnits]
  rintro rest rfl
  exact h rfl

theorem normalizeLfUnits_other {u : UInt16} (h : u ≠ 13) (text : Units) :
    normalizeLfUnits (u :: text) = u :: normalizeLfUnits text := by
  rw [normalizeLfUnits]
  · rintro rest rfl
    exact absurd rfl h
  · exact h

/-- The pairs first and the lone ones then, or both in one pass. -/
theorem normalizeToLf_eq (text : Units) : normalizeToLf text = normalizeLfUnits text := by
  have hskip (text : Units) : Replace.replaceFrom id [13, 10] [10] 0 text = Replace.replace id [13, 10] [10] text := rfl
  rw [normalizeToLf, Replace.replace_singleton]
  induction text using normalizeLfUnits.induct with
  | case1 => rfl
  | case2 text ih =>
    have hhere : Replace.Here id [13, 10] (13 :: 10 :: text) := ⟨text, by simp⟩
    rw [normalizeLfUnits, ← ih, Replace.replace, Replace.replaceFrom_here hhere]
    rfl
  | case3 text hhead ih =>
    have hhead' : text.head? ≠ some 10 := by
      intro h
      obtain ⟨rest, rfl⟩ := List.head?_eq_some_iff.mp h
      exact hhead rest rfl
    have hnot : ¬ Replace.Here id [13, 10] (13 :: text) := by
      rintro ⟨rest, hrest⟩
      exact hhead rest (by simpa using hrest.symm)
    rw [normalizeLfUnits_cr hhead', ← ih, Replace.replace, Replace.replaceFrom_not_here hnot]
    rfl
  | case4 u text _ hu ih =>
    have hnot : ¬ Replace.Here id [13, 10] (u :: text) := by
      rintro ⟨rest, hrest⟩
      exact hu (by simpa using (List.cons.inj hrest).1.symm)
    rw [normalizeLfUnits_other hu, ← ih, Replace.replace, Replace.replaceFrom_not_here hnot, hskip, List.flatMap_cons,
      if_neg hu]
    rfl

/-! ## The normal form of a fuzzy match -/

/-- `rposition`. -/
def rposition (p : UInt16 → Bool) (line : Units) : Option Nat :=
  (line.reverse.findIdx? p).map fun i => line.length - 1 - i

/-- The substitutions of a unit. -/
def substitute (u : UInt16) : UInt16 :=
  if 0x2018 ≤ u ∧ u ≤ 0x201B then 39
  else if 0x201C ≤ u ∧ u ≤ 0x201F then 34
  else if 0x2010 ≤ u ∧ u ≤ 0x2015 ∨ u = 0x2212 then 45
  else if u = 0xA0 ∨ 0x2002 ≤ u ∧ u ≤ 0x200A ∨ u = 0x202F ∨ u = 0x205F ∨ u = 0x3000 then 32
  else u

/-- `finish_units`. -/
def finishUnits (normalized : Units) : Units :=
  (normalized.splitOn 10).zipIdx.flatMap fun (line, i) =>
    (if i > 0 then [10] else []) ++
      (line.take ((rposition (fun u => !jsWhitespace u) line).elim 0 (· + 1))).map substitute

/-- One substitution after another, or all in one match. -/
theorem spaces_dashes (u : UInt16) : spaces (dashes (doubleQuotes (singleQuotes u))) = substitute u := by
  unfold substitute
  by_cases hsingle : 0x2018 ≤ u ∧ u ≤ 0x201B
  · rw [singleQuotes, if_pos hsingle, if_pos hsingle]
    rfl
  rw [singleQuotes, if_neg hsingle, if_neg hsingle]
  by_cases hdouble : 0x201C ≤ u ∧ u ≤ 0x201F
  · rw [doubleQuotes, if_pos hdouble, if_pos hdouble]
    rfl
  rw [doubleQuotes, if_neg hdouble, if_neg hdouble]
  by_cases hdash : 0x2010 ≤ u ∧ u ≤ 0x2015 ∨ u = 0x2212
  · rw [dashes, if_pos hdash, if_pos hdash]
    rfl
  rw [dashes, if_neg hdash, if_neg hdash, spaces]

/-- What the last place of a unit that is no white space leaves. -/
theorem take_rposition (p : UInt16 → Bool) (line : Units) :
    line.take ((rposition (fun u => !p u) line).elim 0 (· + 1)) = line.rdropWhile p := by
  induction line using List.reverseRecOn with
  | nil => simp [rposition]
  | append_singleton line u ih =>
    rw [List.rdropWhile_concat]
    by_cases hu : p u = true
    · have hposition : rposition (fun u => !p u) (line ++ [u]) = rposition (fun u => !p u) line := by
        simp only [rposition, List.reverse_append, List.reverse_cons, List.reverse_nil, List.nil_append,
          List.singleton_append, List.findIdx?_cons, hu, Bool.not_true, Bool.false_eq_true, if_false, Option.map_map]
        congr 1
        funext i
        simp only [Function.comp_apply, List.length_append, List.length_singleton]
        omega
      rw [if_pos hu, hposition, ← ih]
      refine List.take_append_of_le_length ?_
      cases hposition' : rposition (fun u => !p u) line with
      | none => exact Nat.zero_le _
      | some i =>
        obtain ⟨j, hj, rfl⟩ := Option.map_eq_some_iff.mp hposition'
        have hlt := (List.findIdx?_eq_some_iff_getElem.mp hj).1
        rw [List.length_reverse] at hlt
        show line.length - 1 - j + 1 ≤ line.length
        omega
    · simp [rposition, List.findIdx?_cons, hu]

/-- The loop over the lines puts a line feed before each but the first. -/
theorem flatMap_zipIdx (f : Units → Units) (lines : List Units) :
    (lines.zipIdx.flatMap fun (line, i) => (if i > 0 then [10] else []) ++ f line) =
      List.intercalate [10] (lines.map f) := by
  have hbehind (lines : List Units) (k : Nat) :
      ((lines.zipIdx (k + 1)).flatMap fun (line, i) => (if i > 0 then [10] else []) ++ f line) =
        lines.flatMap fun line => 10 :: f line := by
    induction lines generalizing k with
    | nil => rfl
    | cons line lines ih => simp [List.zipIdx_cons, ih]
  have hjoin (first : Units) (lines : List Units) :
      List.intercalate [10] (first :: lines.map f) = first ++ lines.flatMap fun line => 10 :: f line := by
    induction lines generalizing first with
    | nil => simp
    | cons line lines ih =>
      rw [List.map_cons, List.intercalate_cons_cons, ih]
      simp
  cases lines with
  | nil => rfl
  | cons first lines => simp [List.zipIdx_cons, hbehind, hjoin]

theorem map_intercalate {f : UInt16 → UInt16} (hf : f 10 = 10) (lines : List Units) :
    (List.intercalate [10] lines).map f = List.intercalate [10] (lines.map (List.map f)) := by
  induction lines with
  | nil => rfl
  | cons line lines ih =>
    cases lines with
    | nil => simp
    | cons next lines =>
      rw [List.intercalate_cons_cons, List.map_append, List.map_append, ih]
      simp [hf]

/-- A line of the normal form. -/
def finishLine (line : Units) : Units := (line.rdropWhile jsWhitespace).map substitute

theorem finish_eq (text : Units) : finish text = List.intercalate [10] ((text.splitOn 10).map finishLine) := by
  have hsubstitute : spaces ∘ dashes ∘ doubleQuotes ∘ singleQuotes = substitute := funext spaces_dashes
  simp only [finish, List.map_map]
  rw [hsubstitute, map_intercalate (by decide), List.map_map]
  rfl

/-- Both bindings finish alike. -/
theorem finishUnits_eq (text : Units) : finishUnits text = finish text := by
  rw [finishUnits, finish_eq, ← flatMap_zipIdx]
  simp only [take_rposition]
  rfl

/-! ## The normal form of a normal form -/

/-- A unit becomes a quote, a double quote or a dash, a space if it is white space,
or stays. -/
theorem substitute_cases (u : UInt16) :
    (substitute u = 39 ∨ substitute u = 34 ∨ substitute u = 45) ∨
      (substitute u = 32 ∧ jsWhitespace u = true) ∨ substitute u = u := by
  have hspaces : (u = 0xA0 ∨ 0x2002 ≤ u ∧ u ≤ 0x200A ∨ u = 0x202F ∨ u = 0x205F ∨ u = 0x3000) →
      jsWhitespace u = true := by
    rintro (rfl | ⟨hlow, hhigh⟩ | rfl | rfl | rfl)
    · decide
    · have hlow' : (0x2000 : UInt16) ≤ u := UInt16.le_trans (by decide) hlow
      simp [jsWhitespace, hlow', hhigh]
    all_goals decide
  unfold substitute
  split_ifs with hsingle hdouble hdash hspace
  · exact .inl (.inl rfl)
  · exact .inl (.inr (.inl rfl))
  · exact .inl (.inr (.inr rfl))
  · exact .inr (.inl ⟨rfl, hspaces hspace⟩)
  · exact .inr (.inr rfl)

theorem substitute_ne_lf {u : UInt16} (h : u ≠ 10) : substitute u ≠ 10 := by
  rcases substitute_cases u with (hu | hu | hu) | ⟨hu, _⟩ | hu <;> rw [hu]
  case inr.inr => exact h
  all_goals decide

theorem jsWhitespace_substitute {u : UInt16} (h : jsWhitespace u = false) : jsWhitespace (substitute u) = false := by
  rcases substitute_cases u with (hu | hu | hu) | ⟨_, hspace⟩ | hu
  · rw [hu]; decide
  · rw [hu]; decide
  · rw [hu]; decide
  · rw [h] at hspace
    cases hspace
  · rw [hu, h]

theorem substitute_substitute (u : UInt16) : substitute (substitute u) = substitute u := by
  rcases substitute_cases u with (hu | hu | hu) | ⟨hu, _⟩ | hu
  case inr.inr => rw [hu, hu]
  all_goals rw [hu]; decide

theorem finishLine_finishLine (line : Units) : finishLine (finishLine line) = finishLine line := by
  have htrimmed : (finishLine line).rdropWhile jsWhitespace = finishLine line := by
    rw [List.rdropWhile_eq_self_iff]
    intro hne
    have hne' : line.rdropWhile jsWhitespace ≠ [] := by simpa [finishLine] using hne
    have hlast := List.rdropWhile_last_not jsWhitespace line hne'
    rw [Bool.not_eq_true] at hlast
    simp only [finishLine, List.getLast_map, jsWhitespace_substitute hlast]
    decide
  rw [finishLine, htrimmed, finishLine, List.map_map]
  exact List.map_congr_left fun u _ => substitute_substitute u

theorem splitOn_finish (text : Units) : (finish text).splitOn 10 = (text.splitOn 10).map finishLine := by
  have hlines : ∀ line ∈ (text.splitOn 10).map finishLine, 10 ∉ line := by
    intro line hline hmem
    obtain ⟨part, hpart, rfl⟩ := List.mem_map.mp hline
    obtain ⟨u, hu, heq⟩ := List.mem_map.mp hmem
    have hin := (List.rdropWhile_prefix jsWhitespace part).subset hu
    refine absurd heq (substitute_ne_lf ?_)
    rintro rfl
    exact SplitOn.not_mem_of_mem_splitOn hpart hin
  have hne : (text.splitOn 10).map finishLine ≠ [] := by simp
  rw [finish_eq, List.splitOn_intercalate 10 hlines hne]

/-- Without NFKC, the normal form of a normal form is itself. -/
theorem fuzzyNormalize_id (text : Units) : fuzzyNormalize id (fuzzyNormalize id text) = fuzzyNormalize id text := by
  show finish (finish text) = finish text
  rw [finish_eq (finish text), splitOn_finish, List.map_map, finish_eq]
  congr 1
  exact List.map_congr_left fun line _ => finishLine_finishLine line

/-- And no line feed comes or goes. -/
theorem count_fuzzyNormalize_id (text : Units) : (fuzzyNormalize id text).count 10 = text.count 10 := by
  have hlength := congrArg List.length (splitOn_finish text)
  rw [List.length_map, SplitOn.length_splitOn, SplitOn.length_splitOn] at hlength
  exact Nat.succ.inj hlength

end Edit

end MinionAgent
