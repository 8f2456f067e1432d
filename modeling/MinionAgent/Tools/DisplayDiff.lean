import MinionAgent.Library.DecimalUnits
import MinionAgent.Tools.LineDiff

/-!
# MinionAgent.Tools.DisplayDiff

The diff of two texts as it is shown (`generate_diff_string` of
`tools/builtin/edit_diff.py`).

* `Entry`, `render` — what a line says;
* `render_inj` — and that it is read back from the line;
* `isChange_render` — the changes are the marked lines.
-/

namespace MinionAgent

namespace JsDiff

/-! ## The diff as it is shown -/

/-- `str(n)`. -/
def number (n : Nat) : Text := (Nat.toDigits 10 n).map fun c => UInt16.ofNat c.toNat

/-- `rjust`. -/
def rjust (width : Nat) (text : Text) : Text := List.replicate (width - text.length) 32 ++ text

/-- A line as it is shown: a mark, a number and a text. -/
def numberedLine (mark : UInt16) (width n : Nat) (line : Text) : Text :=
  mark :: (rjust width (number n) ++ 32 :: line)

/-- `ellipsis`. -/
def ellipsis (width : Nat) : Text := 32 :: (rjust width [] ++ " ...".toList.map fun c => UInt16.ofNat c.toNat)

/-- The variables of `generate_diff_string`. -/
structure DisplayState where
  output : List Text := []
  oldNum : Nat := 1
  newNum : Nat := 1
  lastWasChange : Bool := false
  firstChanged : Option Nat := none

/-- `context_line`, for each line. -/
def contextLines (width : Nat) (raw : List Text) (s : DisplayState) : DisplayState :=
  raw.foldl (fun s line =>
    { s with
      output := s.output ++ [numberedLine 32 width s.oldNum line]
      oldNum := s.oldNum + 1
      newNum := s.newNum + 1 }) s

/-- The ellipsis, for so many lines skipped. -/
def skipLines (width skipped : Nat) (s : DisplayState) : DisplayState :=
  { s with
    output := s.output ++ [ellipsis width]
    oldNum := s.oldNum + skipped
    newNum := s.newNum + skipped }

/-- The loop over the lines of a changed component. -/
def changedLines (width : Nat) (added : Bool) (raw : List Text) (s : DisplayState) : DisplayState :=
  raw.foldl (fun s line =>
    if added then
      { s with output := s.output ++ [numberedLine 43 width s.newNum line], newNum := s.newNum + 1 }
    else
      { s with output := s.output ++ [numberedLine 45 width s.oldNum line], oldNum := s.oldNum + 1 }) s

/-- `raw`: the lines of a component, without their endings. -/
def rawLines (value : Text) : List Text :=
  let raw := value.splitOn 10
  if raw.getLast? = some [] then raw.dropLast else raw

/-- An unchanged component, by what is before and behind it. -/
def contextPart (context width : Nat) (nextIsChange : Bool) (raw : List Text) (s : DisplayState) : DisplayState :=
  if s.lastWasChange && nextIsChange then
    if raw.length ≤ context * 2 then contextLines width raw s
    else
      let leading := raw.take context
      let trailing := raw.drop (raw.length - context)
      let skipped := raw.length - leading.length - trailing.length
      contextLines width trailing (skipLines width skipped (contextLines width leading s))
  else if s.lastWasChange then
    let shown := raw.take context
    let skipped := raw.length - shown.length
    let s := contextLines width shown s
    if skipped > 0 then skipLines width skipped s else s
  else if nextIsChange then
    let skipped := raw.length - context
    let s := if skipped > 0 then skipLines width skipped s else s
    contextLines width (raw.drop skipped) s
  else { s with oldNum := s.oldNum + raw.length, newNum := s.newNum + raw.length }

/-- Whether a component is a change. -/
def Component.isChange (c : Component Text) : Bool := c.added || c.removed

/-- The loop over the components. -/
def displayLoop (context width : Nat) : List (Component Text) → DisplayState → DisplayState
  | [], s => s
  | part :: parts, s =>
    let raw := rawLines part.value
    if part.isChange then
      let s := { s with firstChanged := s.firstChanged.or (some s.newNum) }
      displayLoop context width parts { changedLines width part.added raw s with lastWasChange := true }
    else
      let nextIsChange := parts.head?.any Component.isChange
      displayLoop context width parts { contextPart context width nextIsChange raw s with lastWasChange := false }

/-- `width`. -/
def numberWidth (old new : Text) : Nat :=
  (number (max (old.splitOn 10).length (new.splitOn 10).length)).length

/-- `generate_diff_string`: the diff, and the first changed line. -/
def generateDiffString (old new : Text) (context : Nat) : Text × Option Nat :=
  let s := displayLoop context (numberWidth old new) (diffLines old new) {}
  (List.intercalate [10] s.output, s.firstChanged)

/-! ## What a line says -/

/-- What a line of the diff says. -/
inductive Entry where
  | context (n : Nat) (line : Text)
  | removed (n : Nat) (line : Text)
  | added (n : Nat) (line : Text)
  | ellipsis

/-- A line that says it. -/
def render (width : Nat) : Entry → Text
  | .context n line => numberedLine 32 width n line
  | .removed n line => numberedLine 45 width n line
  | .added n line => numberedLine 43 width n line
  | .ellipsis => ellipsis width

/-- Whether it is marked as a change. -/
def Entry.isChange : Entry → Bool
  | .removed _ _ | .added _ _ => true
  | .context _ _ | .ellipsis => false

/-- The text of the line it shows. -/
def Entry.line : Entry → Text
  | .context _ line | .removed _ line | .added _ line => line
  | .ellipsis => []

/-- The units of a number are those of digits. -/
theorem mem_number {n : Nat} {u : UInt16} (h : u ∈ number n) : u ≠ 32 ∧ u ≠ 46 ∧ u ≠ 10 := by
  have hrange := DecimalUnits.mem_digits h
  refine ⟨fun h => ?_, fun h => ?_, fun h => ?_⟩
  all_goals
    rw [h] at hrange
    simp at hrange

/-- A number is read back. -/
theorem number_inj {n m : Nat} (h : number n = number m) : n = m := DecimalUnits.digits_injective h

/-- What comes behind some padding. -/
theorem dropWhile_rjust (width : Nat) (text rest : Text) :
    (rjust width text ++ rest).dropWhile (· == 32) = (text ++ rest).dropWhile (· == 32) := by
  rw [rjust, List.append_assoc, List.dropWhile_append_of_pos]
  intro u hu
  rw [List.eq_of_mem_replicate hu]
  rfl

/-- Behind the padding is the number, up to the next space. -/
theorem dropWhile_numbered (width n : Nat) (line : Text) :
    (rjust width (number n) ++ 32 :: line).dropWhile (· == 32) = number n ++ 32 :: line := by
  rw [dropWhile_rjust]
  cases hn : number n with
  | nil => exact absurd (List.map_eq_nil_iff.1 hn) Nat.toDigits_ne_nil
  | cons u us =>
    have hu : u ≠ 32 := (mem_number (hn ▸ List.mem_cons_self : u ∈ number n)).1
    rw [List.cons_append, List.dropWhile_cons_of_neg (by simpa using hu)]

/-- The number and the text of a line are read back. -/
theorem numberedLine_inj {mark mark' : UInt16} {width n n' : Nat} {line line' : Text}
    (h : numberedLine mark width n line = numberedLine mark' width n' line') :
    mark = mark' ∧ n = n' ∧ line = line' := by
  obtain ⟨hmark, hrest⟩ := List.cons.inj h
  have hdrop := congrArg (List.dropWhile (· == 32)) hrest
  rw [dropWhile_numbered, dropWhile_numbered] at hdrop
  have hnot (n : Nat) : ∀ u ∈ number n, (u != 32) = true := fun u hu => by simpa using (mem_number hu).1
  have hnumber := congrArg (List.takeWhile (· != 32)) hdrop
  rw [List.takeWhile_append_of_pos (hnot n), List.takeWhile_append_of_pos (hnot n')] at hnumber
  obtain rfl : n = n' := number_inj (by simpa using hnumber)
  exact ⟨hmark, rfl, (List.cons.inj (List.append_cancel_left hdrop)).2⟩

/-- The ellipsis has no number. -/
theorem numberedLine_ne_ellipsis (mark : UInt16) (width n : Nat) (line : Text) :
    numberedLine mark width n line ≠ ellipsis width := by
  intro h
  obtain ⟨-, hrest⟩ := List.cons.inj h
  have hdrop := congrArg (List.dropWhile (· == 32)) hrest
  rw [dropWhile_numbered, dropWhile_rjust] at hdrop
  cases hn : number n with
  | nil => exact absurd (List.map_eq_nil_iff.1 hn) Nat.toDigits_ne_nil
  | cons u us =>
    rw [hn] at hdrop
    have hu : u = 46 := (List.cons.inj hdrop).1
    exact (mem_number (hn ▸ List.mem_cons_self : u ∈ number n)).2.1 hu

/-- What a line says is read back. -/
theorem render_inj {width : Nat} {e e' : Entry} (h : render width e = render width e') : e = e' := by
  cases e <;> cases e' <;> first
    | rfl
    | exact absurd h (numberedLine_ne_ellipsis _ _ _ _)
    | exact absurd h.symm (numberedLine_ne_ellipsis _ _ _ _)
    | (obtain ⟨hmark, hn, hline⟩ := numberedLine_inj h
       first
         | exact absurd hmark (by decide)
         | rw [hn, hline])

/-- Which lines are changes shows in their marks. -/
theorem isChange_render (width : Nat) (e : Entry) :
    e.isChange = ((render width e).head? == some 43 || (render width e).head? == some 45) := by
  cases e <;> rfl

/-- A line of the diff holds no line ending, if what it shows does not. -/
theorem not_mem_render {width : Nat} {e : Entry} (h : 10 ∉ e.line) : (10 : UInt16) ∉ render width e := by
  have hnumbered {mark : UInt16} {n : Nat} {line : Text} (hmark : mark ≠ 10) (hline : 10 ∉ line) :
      10 ∉ numberedLine mark width n line := by
    intro hmem
    obtain hmem | hmem := List.mem_cons.1 hmem
    · exact hmark hmem.symm
    obtain hmem | hmem := List.mem_append.1 hmem
    · obtain hmem | hmem := List.mem_append.1 hmem
      · exact absurd (List.eq_of_mem_replicate hmem) (by decide)
      · exact (mem_number hmem).2.2 rfl
    · obtain hmem | hmem := List.mem_cons.1 hmem
      · exact absurd hmem (by decide)
      · exact hline hmem
  cases e with
  | context n line => exact hnumbered (by decide) h
  | removed n line => exact hnumbered (by decide) h
  | added n line => exact hnumbered (by decide) h
  | ellipsis =>
    intro hmem
    obtain hmem | hmem := List.mem_cons.1 hmem
    · exact absurd hmem (by decide)
    obtain hmem | hmem := List.mem_append.1 hmem
    · obtain hmem | hmem := List.mem_append.1 hmem
      · exact absurd (List.eq_of_mem_replicate hmem) (by decide)
      · exact absurd hmem List.not_mem_nil
    · revert hmem
      decide

end JsDiff

end MinionAgent
