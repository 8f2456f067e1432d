import MinionAgent.Library.Utf8

/-!
# MinionAgent.Tools.BashOutput

Output accumulation and tail truncation of `bash`
(`tools/builtin/bash_output.py`).

The accumulator decodes the merged chunks with one streaming decoder and keeps
a rolling tail of the text, cut at character boundaries once it has grown past
four times the limit, and counters of the whole stream.
-/

namespace MinionAgent

/-! ## Lines -/

/-- `content.endswith("\n")`. -/
def endsWithNewline (content : List Char) : Bool := content.getLast? == some '\n'

/-- `_split_lines_for_counting`. -/
def splitLinesForCounting (content : List Char) : List (List Char) :=
  if content = [] then []
  else if endsWithNewline content then (content.splitOn '\n').dropLast
  else content.splitOn '\n'

/-- `"\n".join(lines)`. -/
def joinLines (lines : List (List Char)) : List Char := ['\n'].intercalate lines

/-- `text[text.rindex("\n") + 1 :]`, or the whole text without a newline. -/
def afterLastNewline (text : List Char) : List Char := (text.reverse.takeWhile (· != '\n')).reverse

/-! ## Truncation -/

/-- `truncatedBy`. -/
inductive TruncatedBy
  | lines | bytes
deriving DecidableEq

/-- `TruncationResult`.  `firstLineExceedsLimit` is `False` in every one. -/
structure TruncationResult where
  content : List Char
  truncated : Bool
  truncatedBy : Option TruncatedBy
  totalLines : Nat
  totalBytes : Nat
  outputLines : Nat
  outputBytes : Nat
  lastLinePartial : Bool
  maxLines : Nat
  maxBytes : Nat
deriving DecidableEq

/-- `_bytes_from_end`. -/
def bytesFromEnd (text : List Char) (maxBytes : Nat) : List Char :=
  if utf8Len text ≤ maxBytes then text else (cutBytes (utf8Len text - maxBytes) text).2

/-- What the loop of `truncate_tail` has kept, first line first. -/
structure Kept where
  lines : List (List Char) := []
  bytes : Nat := 0
  truncatedBy : TruncatedBy := .lines
  lastLinePartial : Bool := false
deriving DecidableEq

/-- `line_bytes`: the line and the newline that joins it to the kept ones. -/
def Kept.lineBytes (kept : Kept) (line : List Char) : Nat := utf8Len line + if kept.lines.isEmpty then 0 else 1

/-- A line is kept. -/
def Kept.add (kept : Kept) (line : List Char) : Kept :=
  { kept with lines := line :: kept.lines, bytes := kept.bytes + kept.lineBytes line }

/-- A line does not fit: its end is kept if it is the last line. -/
def Kept.stop (maxBytes : Nat) (kept : Kept) (line : List Char) : Kept :=
  if kept.lines.isEmpty then
    { lines := [bytesFromEnd line maxBytes], bytes := utf8Len (bytesFromEnd line maxBytes), truncatedBy := .bytes
      lastLinePartial := true }
  else { kept with truncatedBy := .bytes }

/-- The loop of `truncate_tail` over the lines, last line first. -/
def keepLines (maxLines maxBytes : Nat) : Kept → List (List Char) → Kept
  | kept, [] => kept
  | kept, line :: rest =>
    if maxLines ≤ kept.lines.length then kept
    else if maxBytes < kept.bytes + kept.lineBytes line then kept.stop maxBytes line
    else keepLines maxLines maxBytes (kept.add line) rest

/-- `truncate_tail`. -/
def truncateTail (maxLines maxBytes : Nat) (content : List Char) : TruncationResult :=
  let totalBytes := utf8Len content
  let lines := splitLinesForCounting content
  let totalLines := lines.length
  if totalLines ≤ maxLines ∧ totalBytes ≤ maxBytes then
    { content, truncated := false, truncatedBy := none, totalLines, totalBytes, outputLines := totalLines
      outputBytes := totalBytes, lastLinePartial := false, maxLines, maxBytes }
  else
    let kept := keepLines maxLines maxBytes {} lines.reverse
    let truncatedBy := if maxLines ≤ kept.lines.length ∧ kept.bytes ≤ maxBytes then .lines else kept.truncatedBy
    let output := joinLines kept.lines
    { content := output, truncated := true, truncatedBy := some truncatedBy, totalLines, totalBytes
      outputLines := kept.lines.length, outputBytes := utf8Len output, lastLinePartial := kept.lastLinePartial
      maxLines, maxBytes }

/-! ## The accumulator -/

/-- `OutputAccumulator`. -/
structure OutputAccumulator where
  maxLines : Nat
  maxBytes : Nat
  maxRollingBytes : Nat
  decoder : Utf8Decoder := {}
  atStreamStart : Bool := true
  tailText : List Char := []
  tailBytes : Nat := 0
  tailStartsAtLineBoundary : Bool := true
  totalRawBytes : Nat := 0
  totalDecodedBytes : Nat := 0
  completedLines : Nat := 0
  totalLines : Nat := 0
  lastLineBytes : Nat := 0
  hasOpenLine : Bool := false
  finished : Bool := false
deriving DecidableEq

/-- `_BOM`. -/
def bom : Char := Char.ofNat 0xFEFF

namespace OutputAccumulator

/-- `OutputAccumulator.__init__`. -/
def init (maxLines maxBytes : Nat) : OutputAccumulator where
  maxLines := maxLines
  maxBytes := maxBytes
  maxRollingBytes := max (maxBytes * 2) 1

/-- `_trim_tail`. -/
def trimTail (a : OutputAccumulator) : OutputAccumulator :=
  if utf8Len a.tailText ≤ a.maxRollingBytes then { a with tailBytes := utf8Len a.tailText }
  else
    let cut := cutBytes (utf8Len a.tailText - a.maxRollingBytes) a.tailText
    { a with
      tailStartsAtLineBoundary := if cut.1 = [] then a.tailStartsAtLineBoundary else endsWithNewline cut.1
      tailText := cut.2
      tailBytes := utf8Len cut.2 }

/-- The part of `_append_decoded` that keeps the tail. -/
def appendTail (a : OutputAccumulator) (text : List Char) : OutputAccumulator :=
  let a := { a with tailText := a.tailText ++ text, tailBytes := a.tailBytes + utf8Len text }
  if a.maxRollingBytes * 2 < a.tailBytes then a.trimTail else a

/-- The part of `_append_decoded` that counts lines. -/
def countLines (a : OutputAccumulator) (text : List Char) : OutputAccumulator :=
  let newlines := text.count '\n'
  let a :=
    if newlines = 0 then { a with lastLineBytes := a.lastLineBytes + utf8Len text, hasOpenLine := true }
    else
      { a with
        completedLines := a.completedLines + newlines
        lastLineBytes := utf8Len (afterLastNewline text)
        hasOpenLine := !(afterLastNewline text).isEmpty }
  { a with totalLines := a.completedLines + if a.hasOpenLine then 1 else 0 }

/-- `_append_decoded`. -/
def appendDecoded (a : OutputAccumulator) (text : List Char) : OutputAccumulator :=
  if text = [] then a
  else ({ a with totalDecodedBytes := a.totalDecodedBytes + utf8Len text }.appendTail text).countLines text

/-- `_decode`. -/
def decode (a : OutputAccumulator) (data : List UInt8) (final : Bool) : List Char × OutputAccumulator :=
  let fed := a.decoder.feed data
  let text := if final then fed.1 ++ fed.2.flush else fed.1
  let a := { a with decoder := if final then {} else fed.2 }
  if a.atStreamStart ∧ text ≠ [] then
    (if text.head? = some bom then text.tail else text, { a with atStreamStart := false })
  else (text, a)

/-- `append`. -/
def append (a : OutputAccumulator) (data : List UInt8) : Except String OutputAccumulator :=
  if a.finished then .error "Cannot append to a finished output accumulator"
  else
    let decoded := { a with totalRawBytes := a.totalRawBytes + data.length }.decode data false
    .ok (decoded.2.appendDecoded decoded.1)

/-- `finish`. -/
def finish (a : OutputAccumulator) : OutputAccumulator :=
  if a.finished then a
  else
    let decoded := { a with finished := true }.decode [] true
    decoded.2.appendDecoded decoded.1

/-- `_snapshot_text`. -/
def snapshotText (a : OutputAccumulator) : List Char :=
  if a.tailStartsAtLineBoundary then a.tailText
  else if '\n' ∈ a.tailText then (a.tailText.dropWhile (· != '\n')).tail
  else a.tailText

/-- `snapshot`. -/
def snapshot (a : OutputAccumulator) : TruncationResult :=
  let tail := truncateTail a.maxLines a.maxBytes a.snapshotText
  let truncated := a.maxLines < a.totalLines ∨ a.maxBytes < a.totalDecodedBytes
  let truncatedBy :=
    if truncated then some (tail.truncatedBy.getD (if a.maxBytes < a.totalDecodedBytes then .bytes else .lines))
    else none
  { tail with
    truncated := truncated
    truncatedBy := truncatedBy
    totalLines := a.totalLines
    totalBytes := a.totalDecodedBytes
    maxLines := a.maxLines
    maxBytes := a.maxBytes }

/-- All chunks appended to a new accumulator, which is then finished. -/
def accumulate (maxLines maxBytes : Nat) (chunks : List (List UInt8)) : Except String OutputAccumulator :=
  (chunks.foldlM append (init maxLines maxBytes)).map finish

end OutputAccumulator

end MinionAgent
