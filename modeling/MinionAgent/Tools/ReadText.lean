import MinionAgent.Tools.HeadTruncation
import MinionAgent.Library.Binary64
import MinionAgent.Library.EcmaNumber
import MinionAgent.Library.Loop

/-!
# MinionAgent.Tools.ReadText

The text branch of the `read` tool (`_text` in `tools/builtin/read.py`,
`read_text` in `tools/builtin/text.rs`) with the number functions each binding
has for it (`tools/builtin/_js.py`, `tools/builtin/numeric.rs`).

* `readPage` — the page at an offset: its content, the notice behind it, and the
  offset that the notice names;
* `readNext` — reading on with the offset that a notice named.

Which digits write a double shortest is a parameter, and so is the library that
writes numbers in Rust.
-/

namespace MinionAgent

open Ecma

def DEFAULT_MAX_LINES : Nat := 2000
def DEFAULT_MAX_BYTES : Nat := 50 * 1024

/-- Node's `TypeError` for a line at a fractional index. -/
def UNDEFINED_LINE_ERROR : List Char :=
  ("The \"string\" argument must be of type string or an instance of Buffer or ArrayBuffer. " ++
    "Received undefined").toList

/-! ## Numbers -/

/-- The shortest digits that round-trip to a positive double, and their exponent: the number is
`digits · 10 ^ exponent`. -/
abbrev Shortest := ℚ → List Char × ℤ

/-- Truncation towards zero. -/
def truncate (q : ℚ) : ℤ := if 0 ≤ q then ⌊q⌋ else ⌈q⌉

/-- A quotient with one digit behind the point, in tenths. -/
def oneDigit (tenths : Nat) : List Char := natText (tenths / 10) ++ '.' :: natText (tenths % 10)

/-- `format_size`, a quotient being rounded to tenths by a parameter. -/
def formatSizeBy (tenths : Nat → Nat → Nat) (size : Nat) : List Char :=
  if size < 1024 then natText size ++ "B".toList
  else if size < 1024 * 1024 then oneDigit (tenths size 1024) ++ "KB".toList
  else oneDigit (tenths size (1024 * 1024)) ++ "MB".toList

namespace Python

/-- `number_to_string` of a positive number. -/
def positiveToString (shortest : Shortest) (q : ℚ) : List Char :=
  caseText (shortest q).1 ((shortest q).2 + (shortest q).1.length)

/-- `number_to_string`. -/
def numberToString (shortest : Shortest) : Binary64 → List Char
  | .nan => "NaN".toList
  | .infinite negative => (if negative then ['-'] else []) ++ "Infinity".toList
  | .finite q =>
    if q = 0 then "0".toList
    else if q < 0 then '-' :: positiveToString shortest (-q)
    else positiveToString shortest q

/-- `to_fixed(size / unit, 1)` in tenths: halves go up.  The quotient is a double exactly. -/
def tenths (size unit : Nat) : Nat := (2 * (10 * size) + unit) / (2 * unit)

def formatSize (size : Nat) : List Char := formatSizeBy tenths size

def mathMin (a b : Binary64) : Binary64 := if a = .nan ∨ b = .nan then .nan else if a.le b then a else b
def mathMax (a b : Binary64) : Binary64 := if a = .nan ∨ b = .nan then .nan else if b.le a then a else b

/-- `_relative_index`. -/
def relativeIndex (index : Binary64) (length : Nat) : Nat :=
  match index with
  | .nan => 0
  | .infinite negative => if negative then 0 else length
  | .finite q => if truncate q < 0 then (max (length + truncate q) 0).toNat else min (truncate q).toNat length

/-- `js_slice`. -/
def jsSlice (items : List (List Char)) (start : Binary64) (stop : Option Binary64) : List (List Char) :=
  let lo := relativeIndex start items.length
  let hi := match stop with
    | none => items.length
    | some stop => relativeIndex stop items.length
  if lo < hi then (items.take hi).drop lo else []

end Python

namespace Rust

/-- `number_to_string`: a library writes what is neither zero nor infinite. -/
def numberToString (ryu : ℚ → List Char) : Binary64 → List Char
  | .nan => "NaN".toList
  | .infinite false => "Infinity".toList
  | .infinite true => "-Infinity".toList
  | .finite q => if q = 0 then "0".toList else ryu q

/-- `{:.1}` of `size / unit` in tenths: halves go to the even digit. -/
def tenths (size unit : Nat) : Nat :=
  let floor := 10 * size / unit
  let twice := 2 * (10 * size % unit)
  if twice < unit then floor else if unit < twice then floor + 1 else if floor % 2 = 0 then floor else floor + 1

def formatSize (size : Nat) : List Char := formatSizeBy tenths size

/-- `f64::min` and `f64::max` of numbers that are not NaN. -/
def f64Min (a b : Binary64) : Binary64 := if b.lt a then b else a
def f64Max (a b : Binary64) : Binary64 := if a.lt b then b else a

def jsMin (a b : Binary64) : Binary64 := if a = .nan ∨ b = .nan then .nan else f64Min a b
def jsMax (a b : Binary64) : Binary64 := if a = .nan ∨ b = .nan then .nan else f64Max a b

/-- `as usize`: towards zero, within the range of the type. -/
def asUsize : Binary64 → Nat
  | .nan => 0
  | .infinite negative => if negative then 0 else 2 ^ 64 - 1
  | .finite q => min (truncate q).toNat (2 ^ 64 - 1)

/-- `slice_index`. -/
def sliceIndex (index : Binary64) (len : Nat) : Nat :=
  match index with
  | .nan => 0
  | .infinite false => len
  | .infinite true => 0
  | .finite q =>
    let integer : Binary64 := .finite (truncate q)
    if integer.lt (.finite 0) then asUsize (jsMax ((Binary64.ofInt len).add integer) (.finite 0))
    else asUsize (jsMin integer (Binary64.ofInt len))

/-- `js_slice`. -/
def jsSlice (lines : List (List Char)) (start : Binary64) (stop : Option Binary64) : List (List Char) :=
  let first := sliceIndex start lines.length
  let last := match stop with
    | none => lines.length
    | some n => sliceIndex n lines.length
  (lines.take (max last first)).drop first

end Rust

/-! ## Pages -/

/-- The functions a binding reads a page with. -/
structure ReadFunctions where
  mathMin : Binary64 → Binary64 → Binary64
  mathMax : Binary64 → Binary64 → Binary64
  jsSlice : List (List Char) → Binary64 → Option Binary64 → List (List Char)
  numberToString : Binary64 → List Char
  formatSize : Nat → List Char
  truncateHead : List Char → Truncation

namespace Python

def readFunctions (shortest : Shortest) : ReadFunctions where
  mathMin := mathMin
  mathMax := mathMax
  jsSlice := jsSlice
  numberToString := numberToString shortest
  formatSize := formatSize
  truncateHead := truncateHead DEFAULT_MAX_LINES DEFAULT_MAX_BYTES

end Python

namespace Rust

def readFunctions (ryu : ℚ → List Char) : ReadFunctions where
  mathMin := jsMin
  mathMax := jsMax
  jsSlice := jsSlice
  numberToString := numberToString ryu
  formatSize := formatSize
  truncateHead := truncateHead DEFAULT_MAX_LINES DEFAULT_MAX_BYTES

end Rust

/-- `details.truncation`. -/
structure TruncationDetails where
  truncated : Bool
  truncatedBy : Option TruncatedBy
  totalLines : Nat
  totalBytes : Nat
  firstLineExceedsLimit : Bool
deriving DecidableEq

def Truncation.details (t : Truncation) : TruncationDetails where
  truncated := t.truncated
  truncatedBy := t.truncatedBy
  totalLines := t.totalLines
  totalBytes := t.totalBytes
  firstLineExceedsLimit := t.firstLineExceedsLimit

/-- What a notice says, and the offset it names. -/
structure Notice where
  said : List Char
  next : Binary64
deriving DecidableEq

structure Page where
  content : List Char
  notice : Option Notice
  details : Option TruncationDetails
deriving DecidableEq

/-- The text of a page: the content, and the notice behind it. -/
def Page.text (f : ReadFunctions) (page : Page) : List Char :=
  match page.notice with
  | none => page.content
  | some notice =>
    page.content ++ "\n\n[".toList ++ notice.said ++ "Use offset=".toList ++ f.numberToString notice.next ++
      " to continue.]".toList

/-- The lines of a file. -/
def fileLines (data : List UInt8) : List (List Char) := (decodeUtf8 data).splitOn '\n'

/-- The line a page starts at; an offset that JavaScript takes for false starts at the first. -/
def startLine (f : ReadFunctions) (offset : Option Binary64) : Binary64 :=
  match offset with
  | none => .finite 0
  | some offset =>
    if offset = .finite 0 ∨ offset = .nan then .finite 0 else f.mathMax (.finite 0) (offset.sub (.finite 1))

/-- The line behind the last one that a limit allows. -/
def endLine (f : ReadFunctions) (total : Nat) (start : Binary64) (limit : Option Binary64) : Option Binary64 :=
  limit.map fun limit => f.mathMin (start.add limit) (Binary64.ofInt total)

/-- The lines a page selects, before any truncation. -/
def selectedLines (f : ReadFunctions) (lines : List (List Char)) (offset limit : Option Binary64) : List (List Char) :=
  f.jsSlice lines (startLine f offset) (endLine f lines.length (startLine f offset) limit)

/-- The line at a whole index. -/
def lineAt (lines : List (List Char)) : Binary64 → Option (List Char)
  | .finite q => if q = ⌊q⌋ then lines[⌊q⌋.toNat]? else none
  | _ => none

/-- The message for a line that alone exceeds the ceiling. -/
def longLineText (f : ReadFunctions) (path : List Char) (display : Binary64) (line : List Char) : List Char :=
  "[Line ".toList ++ f.numberToString display ++ " is ".toList ++ f.formatSize (utf8Len line) ++ ", exceeds ".toList ++
    f.formatSize DEFAULT_MAX_BYTES ++ " limit. Use bash: sed -n '".toList ++ f.numberToString display ++
    "p' ".toList ++ path ++ " | head -c ".toList ++ natText DEFAULT_MAX_BYTES ++ "]".toList

/-- The notice of a truncated page. -/
def truncatedNotice (f : ReadFunctions) (total : Nat) (startDisplay : Binary64) (t : Truncation) : Notice :=
  let endDisplay := (startDisplay.add (Binary64.ofInt t.outputLines)).sub (.finite 1)
  let shown := "lines ".toList ++ f.numberToString startDisplay ++ "-".toList ++ f.numberToString endDisplay ++
    " of ".toList ++ natText total
  { said := "Showing ".toList ++ shown ++
      (if t.truncatedBy = some .lines then [] else " (".toList ++ f.formatSize DEFAULT_MAX_BYTES ++ " limit)".toList) ++
      ". ".toList
    next := endDisplay.add (.finite 1) }

/-- The notice of a page that a limit ended before the end of the file. -/
def limitNotice (f : ReadFunctions) (total : Nat) (start limited : Binary64) : Notice where
  said := f.numberToString ((Binary64.ofInt total).sub (start.add limited)) ++ " more lines in file. ".toList
  next := (start.add limited).add (.finite 1)

/-- The page of a file at an offset, or the message of the error. -/
def readPage (f : ReadFunctions) (data : List UInt8) (path : List Char) (offset limit : Option Binary64) :
    Except (List Char) Page :=
  let lines := fileLines data
  let start := startLine f offset
  let startDisplay := start.add (.finite 1)
  if (Binary64.ofInt lines.length).le start then
    .error ("Offset ".toList ++ f.numberToString (offset.getD (.finite 0)) ++ " is beyond end of file (".toList ++
      natText lines.length ++ " lines total)".toList)
  else
    let t := f.truncateHead (joinLines (selectedLines f lines offset limit))
    if t.firstLineExceedsLimit then
      match lineAt lines start with
      | none => .error UNDEFINED_LINE_ERROR
      | some line => .ok { content := longLineText f path startDisplay line, notice := none, details := some t.details }
    else if t.truncated then
      .ok
        { content := t.content
          notice := some (truncatedNotice f lines.length startDisplay t)
          details := some t.details }
    else
      match endLine f lines.length start limit with
      | none => .ok { content := t.content, notice := none, details := none }
      | some stop =>
        let limited := stop.sub start
        if (start.add limited).lt (Binary64.ofInt lines.length) then
          .ok { content := t.content, notice := some (limitNotice f lines.length start limited), details := none }
        else .ok { content := t.content, notice := none, details := none }

/-- The text and the details of a page. -/
def readTextBy (f : ReadFunctions) (data : List UInt8) (path : List Char) (offset limit : Option Binary64) :
    Except (List Char) (List Char × Option TruncationDetails) :=
  (readPage f data path offset limit).map fun page => (page.text f, page.details)

namespace Python

/-- `_text`. -/
def text (shortest : Shortest) (data : List UInt8) (path : List Char) (offset limit : Option Binary64) :
    Except (List Char) (List Char × Option TruncationDetails) :=
  readTextBy (readFunctions shortest) data path offset limit

end Python

namespace Rust

/-- `read_text`. -/
def readText (ryu : ℚ → List Char) (data : List UInt8) (path : List Char) (offset limit : Option Binary64) :
    Except (List Char) (List Char × Option TruncationDetails) :=
  readTextBy (readFunctions ryu) data path offset limit

end Rust

/-! ## Reading on -/

/-- The pages read so far, and the offset of the next one. -/
structure Reading where
  offset : Option Binary64
  turn : Nat
  pages : List Page

/-- The next page, with the limit of its turn; reading ends at a page without a notice. -/
def readNext (f : ReadFunctions) (data : List UInt8) (path : List Char) (limits : Nat → Option Binary64) (r : Reading) :
    Reading ⊕ Except (List Char) (List Page) :=
  match readPage f data path r.offset (limits r.turn) with
  | .error message => .inr (.error message)
  | .ok page =>
    match page.notice with
    | none => .inr (.ok (r.pages ++ [page]))
    | some notice => .inl { offset := some notice.next, turn := r.turn + 1, pages := r.pages ++ [page] }

end MinionAgent
