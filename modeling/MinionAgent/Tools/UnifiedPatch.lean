import MinionAgent.Library.LinePatch
import MinionAgent.Tools.LineDiff

/-!
# MinionAgent.Tools.UnifiedPatch

The hunks of the unified patch of two texts, as `create_two_files_patch` prints
them (`_structured_hunks` of `tools/builtin/_jsdiff.py`).

What a patch says is in `applyPatch`: a reader takes the body of a hunk back into
marked lines, where the line before the marker has no ending, checks both of its
counts, and applies the hunks at their places (`Library.LinePatch`).
-/

namespace MinionAgent

namespace JsDiff

open TerminatedLines (lines)
open LinePatch (Mark oldSide newSide)

/-! ## Hunks -/

/-- `_Hunk`. -/
structure Hunk where
  oldStart : Int
  oldLines : Int
  newStart : Int
  newLines : Int
  lines : List Text

/-- The variables of `_structured_hunks`: no hunk is open where `oldRangeStart` is 0. -/
structure HunkState where
  hunks : List Hunk := []
  oldRangeStart : Int := 0
  newRangeStart : Int := 0
  curRange : List Text := []
  oldLine : Int := 1
  newLine : Int := 1

/-- A hunk is opened with the last lines of the component before, if there is one. -/
def openHunk (context : Nat) (prev : Option (List Text)) (s : HunkState) : HunkState :=
  if s.oldRangeStart = 0 then
    match prev with
    | none => { s with oldRangeStart := s.oldLine, newRangeStart := s.newLine }
    | some prevLines =>
      let curRange := if context > 0 then (prevLines.drop (prevLines.length - context)).map (32 :: ·) else []
      { s with
        oldRangeStart := s.oldLine - curRange.length
        newRangeStart := s.newLine - curRange.length
        curRange := curRange }
  else s

/-- An added or removed component. -/
def changedStep (context : Nat) (prev : Option (List Text)) (added : Bool) (lines : List Text) (s : HunkState) :
    HunkState :=
  let s := openHunk context prev s
  let s := { s with curRange := s.curRange ++ lines.map ((if added then 43 else 45) :: ·) }
  if added then { s with newLine := s.newLine + lines.length } else { s with oldLine := s.oldLine + lines.length }

/-- An unchanged component: an open hunk goes on through it, or is closed. -/
def unchangedStep (context : Nat) (beforeLast : Bool) (lines : List Text) (s : HunkState) : HunkState :=
  let s :=
    if s.oldRangeStart ≠ 0 then
      if lines.length ≤ context * 2 ∧ beforeLast then { s with curRange := s.curRange ++ lines.map (32 :: ·) }
      else
        let size := min lines.length context
        { s with
          hunks := s.hunks ++ [{
            oldStart := s.oldRangeStart
            oldLines := s.oldLine - s.oldRangeStart + size
            newStart := s.newRangeStart
            newLines := s.newLine - s.newRangeStart + size
            lines := s.curRange ++ (lines.take size).map (32 :: ·) }]
          oldRangeStart := 0
          newRangeStart := 0
          curRange := [] }
    else s
  { s with oldLine := s.oldLine + lines.length, newLine := s.newLine + lines.length }

/-- The loop over the components, with the lines of each. -/
def hunkLoop (context : Nat) : Option (List Text) → List (Component Text × List Text) → HunkState → HunkState
  | _, [], s => s
  | prev, (current, lines) :: rest, s =>
    hunkLoop context (some lines) rest
      (if current.added || current.removed then changedStep context prev current.added lines s
        else unchangedStep context (2 ≤ rest.length) lines s)

/-- The marker behind a line without an ending. -/
def noNewline : Text := "\\ No newline at end of file".toList.map fun c => UInt16.ofNat c.toNat

/-- The lines of a hunk lose their endings, and the marker is inserted where there is none. -/
def markEndings (lines : List Text) : List Text :=
  lines.flatMap fun line => if line.getLast? = some 10 then [line.dropLast] else [line, noNewline]

/-- `_structured_hunks`: the last component is the sentinel, which keeps its zero lines. -/
def structuredHunks (old new : Text) (context : Nat) : List Hunk :=
  let diff := (diffLines old new).map fun c => (c, splitLines c.value)
  let sentinel : Component Text × List Text := ({ count := 0, added := false, removed := false }, [])
  (hunkLoop context none (diff ++ [sentinel]) {}).hunks.map fun h => { h with lines := markEndings h.lines }

/-- The zero-length-hunk start adjustment. -/
def Hunk.printed (h : Hunk) : Hunk :=
  { h with
    oldStart := if h.oldLines = 0 then h.oldStart - 1 else h.oldStart
    newStart := if h.newLines = 0 then h.newStart - 1 else h.newStart }

/-- The hunks of the patch, as they are printed. -/
def patchHunks (old new : Text) (context : Nat) : List Hunk := (structuredHunks old new context).map Hunk.printed

/-! ## Reading a patch -/

/-- The unit a line of a hunk is marked with. -/
def markUnit : Mark → UInt16
  | .context => 32
  | .remove => 45
  | .add => 43

/-- A marked line of a hunk. -/
def readLine : Text → Option (LinePatch.Edit Text)
  | [] => none
  | u :: line =>
    if u = 32 then some (.context, line) else if u = 45 then some (.remove, line)
    else if u = 43 then some (.add, line) else none

/-- The body of a hunk: each line has its ending, unless the marker is behind it. -/
def readBody : List Text → Option (List (LinePatch.Edit Text))
  | [] => some []
  | [line] => (readLine (line ++ [10])).map fun edit => [edit]
  | line :: next :: rest =>
    if next = noNewline then (readLine line).bind fun edit => (readBody rest).map (edit :: ·)
    else (readLine (line ++ [10])).bind fun edit => (readBody (next :: rest)).map (edit :: ·)

/-- How many lines are before a hunk: where it has none on this side, its start is the line before. -/
def linesBefore (start count : Int) : Int := if count = 0 then start else start - 1

/-- A hunk as it is printed, where its counts are those of its body. -/
def readHunk (h : Hunk) : Option (LinePatch.Hunk Text) :=
  (readBody h.lines).bind fun body =>
    if h.oldLines = (oldSide body).length ∧ h.newLines = (newSide body).length ∧
        0 ≤ linesBefore h.oldStart h.oldLines ∧ 0 ≤ linesBefore h.newStart h.newLines then
      some {
        oldAt := (linesBefore h.oldStart h.oldLines).toNat
        newAt := (linesBefore h.newStart h.newLines).toNat
        body := body }
    else none

/-- A patch applied to a text. -/
def applyPatch (hunks : List Hunk) (text : Text) : Option Text :=
  (hunks.mapM readHunk).bind fun hs => (LinePatch.apply hs 0 0 (lines 10 text)).map List.flatten

/-- A line of a reversed hunk. -/
def reverseLine : Text → Text
  | [] => []
  | u :: line => if u = 45 then 43 :: line else if u = 43 then 45 :: line else u :: line

/-- A reversed hunk. -/
def Hunk.reverse (h : Hunk) : Hunk :=
  { oldStart := h.newStart
    oldLines := h.newLines
    newStart := h.oldStart
    newLines := h.oldLines
    lines := h.lines.map reverseLine }

end JsDiff

end MinionAgent
