import Mathlib.Data.List.DropRight
import MinionAgent.Library.JsonGrammar
import MinionAgent.Library.Program
import MinionAgent.Library.Utf16

/-!
# MinionAgent.Skills.Frontmatter

The reader of the frontmatter subset (`skills/_frontmatter.py`): scalars on a
line and over lines, block scalars, sequences and mappings.

What can go wrong in the program is a fault of its own here: an index out of
range, a failed assertion, or a recursion deeper than it may be.  The state is a
log of the lines, and of what read each of them; the program does not have it.

* `sameLineScalar`, `blockScalar`, `sequence`, `mapping` — the nested readers;
* `document`, `readSubset` — the whole.
-/

namespace MinionAgent.Frontmatter

open Rfc8259 (CodePoint codePoint)

abbrev Text : Type := List CodePoint

/-- The code points of a literal. -/
def chars (literal : String) : Text := literal.toList.map fun c => codePoint c.toNat

inductive Value
  | null
  | bool (b : Bool)
  | number (text : Text)
  | string (text : Text)
  | list (items : List Value)
  | dict (entries : List (Text × Value))

/-! ## Reading -/

/-- What is raised. -/
inductive Raised
  | frontmatterError (message : String)
  | indexError
  | assertionError
  | recursionError

/-- What reads a line. -/
inductive Owner
  | entry
  | item
  | scalar

/-- The lines read so far. -/
abbrev Log : Type := List (Nat × Owner)

abbrev Read (α : Type) : Type := Program Log Raised α

/-- `raise FrontmatterError`. -/
def fail {α : Type} (message : String) : Read α := throw (.frontmatterError message)

/-- A line is read. -/
def log (line : Nat) (owner : Owner) : Read Unit := modify (· ++ [(line, owner)])

/-- An element at an index, as Python finds it. -/
def item {α : Type} (xs : List α) (i : Nat) : Read α :=
  match xs[i]? with
  | some x => pure x
  | none => throw .indexError

/-! ## Characters -/

/-- `_forbidden`. -/
def forbidden (c : CodePoint) : Bool :=
  (c.val < 0x20 && !(c.val == 0x09 || c.val == 0x0A)) || c.val == 0x7F || (0x80 ≤ c.val && c.val ≤ 0x9F) ||
    (c.val == 0x2028 || c.val == 0x2029 || c.val == 0xFEFF) || (0xD800 ≤ c.val && c.val ≤ 0xDFFF)

/-- A space or a tab. -/
def isSpTab (c : CodePoint) : Bool := c == 0x20 || c == 0x09

/-- `_JS_CODE_POINTS`. -/
def isJsSpace (c : CodePoint) : Bool :=
  (0x09 ≤ c.val && c.val ≤ 0x0D) || c.val == 0x20 || c.val == 0xA0 || c.val == 0x1680 ||
    (0x2000 ≤ c.val && c.val ≤ 0x200A) || c.val == 0x2028 || c.val == 0x2029 || c.val == 0x202F || c.val == 0x205F ||
    c.val == 0x3000 || c.val == 0xFEFF

def isDigit (c : CodePoint) : Bool := 0x30 ≤ c.val && c.val ≤ 0x39

def isLetter (c : CodePoint) : Bool := (0x41 ≤ c.val && c.val ≤ 0x5A) || (0x61 ≤ c.val && c.val ≤ 0x7A)

/-- The value of a hexadecimal digit. -/
def hexValue? (c : CodePoint) : Option Nat :=
  if isDigit c then some (c.val - 0x30)
  else if 0x41 ≤ c.val ∧ c.val ≤ 0x46 then some (c.val - 0x37)
  else if 0x61 ≤ c.val ∧ c.val ≤ 0x66 then some (c.val - 0x57)
  else none

/-! ## Keys and plain values -/

/-- `_KEY`. -/
def isKey : Text → Bool
  | [] => false
  | c :: rest => (isLetter c || c == 0x5F) && rest.all fun c => isLetter c || isDigit c || (chars "_.-").contains c

/-- `_RESERVED_KEYS`. -/
def reservedKeys : List Text :=
  ["null", "Null", "NULL", "true", "True", "TRUE", "false", "False", "FALSE"].map chars

/-- `_NULL`. -/
def isNull (text : Text) : Bool := (["", "~", "null", "Null", "NULL"].map chars).contains text

/-- `_BOOL`. -/
def isBool (text : Text) : Bool := (["true", "True", "TRUE", "false", "False", "FALSE"].map chars).contains text

/-- A text after a prefix. -/
def after? (front : String) (text : Text) : Option Text := (chars front).isPrefixOf? text

/-- `[-+]?` -/
def unsigned : Text → Text
  | c :: rest => if c == 0x2B || c == 0x2D then rest else c :: rest
  | [] => []

/-- `[0-9]+\Z` -/
def allDigits (text : Text) : Bool := !text.isEmpty && text.all isDigit

/-- `(?:\.[0-9]+|[0-9]+(?:\.[0-9]*)?)\Z`, with the point if it must be there. -/
def isDecimal (point : Bool) (text : Text) : Bool :=
  match text.dropWhile isDigit with
  | [] => !text.isEmpty && !point
  | c :: fraction => c == 0x2E && fraction.all isDigit && (text.head?.any isDigit || !fraction.isEmpty)

/-- `_NUMBERS`, in their order. -/
def isNumber (text : Text) : Bool :=
  (after? "0o" text).any (fun rest => !rest.isEmpty && rest.all fun c => isDigit c && c.val ≤ 0x37) ||
    allDigits (unsigned text) ||
    (after? "0x" text).any (fun rest => !rest.isEmpty && rest.all fun c => (hexValue? c).isSome) ||
    (([".inf", ".Inf", ".INF"].map chars).contains (unsigned text) ||
      ([".nan", ".NaN", ".NAN"].map chars).contains text) ||
    (match (unsigned text).span fun c => !(c == 0x65 || c == 0x45) with
      | (mantissa, _ :: exponent) => isDecimal false mantissa && allDigits (unsigned exponent)
      | (_, []) => false) ||
    isDecimal true (unsigned text)

/-- `_resolve_plain`. -/
def resolvePlain (text : Text) : Value :=
  if isNull text then .null
  else if isBool text then .bool (text.head?.any fun c => c == 0x74 || c == 0x54)
  else if isNumber text then .number text
  else .string text

/-! ## Lines -/

/-- `_indent`. -/
def indent (line : Text) : Nat := (line.takeWhile (· == 0x20)).length

/-- `_blank`. -/
def blank (line : Text) : Bool := line.all isSpTab

/-- `_comment`. -/
def comment (line : Text) : Bool := (line.dropWhile isSpTab).head? == some 0x23

/-- `_blank_or_comment`. -/
def blankOrComment (line : Text) : Bool := blank line || comment line

/-- `_COMMENT.search`: what is before the comment, and whether there is one. -/
def searchComment : Text → Text × Bool
  | c :: d :: rest =>
    if isSpTab c && d == 0x23 then ([], true)
    else ((searchComment (d :: rest)).1.cons c, (searchComment (d :: rest)).2)
  | text => (text, false)

/-- `rstrip(" \t")`. -/
def rstrip (text : Text) : Text := text.rdropWhile isSpTab

/-- `_plain_line`. -/
def plainLine (raw : Text) : Text := rstrip (searchComment raw).1

/-- `_PLAIN_FIRST_FORBIDDEN`. -/
def plainFirstForbidden (c : CodePoint) : Bool := (chars "-?:,[]\x7b\x7d#&*!|>'\"%@`").contains c

/-- `re.search(r":[ \t]", text) or text.endswith(":")`. -/
def hasSeparator : Text → Bool
  | [] => false
  | [c] => c == 0x3A
  | c :: d :: rest => (c == 0x3A && isSpTab d) || hasSeparator (d :: rest)

/-- `_check_plain_segment`. -/
def checkPlainSegment (text : Text) (first : Bool) : Read Unit := do
  let lead ← item text 0
  let safeLead := (chars "-?:").contains lead &&
    (Utf16.toUnits text)[1]?.any fun unit => !(unit == 0x20 || unit == 0x09)
  if plainFirstForbidden lead && !(first && safeLead) then fail "plain scalar starts with an indicator"
  else if hasSeparator text then fail "plain scalar contains ': ' or ends with ':'"
  else if text.contains 0x09 then fail "tab inside a plain scalar"
  else pure ()

/-! ## Quoted scalars -/

/-- `_SIMPLE_ESCAPES`. -/
def simpleEscape (c : CodePoint) : Option CodePoint :=
  if c == 0x5C || c == 0x22 || c == 0x2F then some c
  else if c == 0x74 then some 0x09
  else if c == 0x6E then some 0x0A
  else none

/-- `_HEX`. -/
def hexWidth (c : CodePoint) : Option Nat :=
  if c == 0x78 then some 2 else if c == 0x75 then some 4 else if c == 0x55 then some 8 else none

/-- `int(digits, 16)`, of so many digits. -/
def hexNumber? (width : Nat) (digits : Text) : Option Nat :=
  if digits.length = width then
    digits.foldlM (fun number c => (hexValue? c).map fun digit => number * 16 + digit) 0
  else none

/-- The loop of `_decode_double`, from a position of the body on. -/
def decodeLoop (out : Text) : Text → Read Text
  | [] => pure out
  | c :: rest =>
    if c != 0x5C then decodeLoop (out ++ [c]) rest
    else
      match rest with
      | [] => fail "unsupported escape"
      | e :: rest =>
        match simpleEscape e with
        | some c => decodeLoop (out ++ [c]) rest
        | none =>
          match hexWidth e with
          | none => fail "unsupported escape"
          | some width =>
            match hexNumber? width (rest.take width) with
            | none => fail "bad hex escape"
            | some number =>
              if number > 0x10FFFF || forbidden (codePoint number) then
                fail "escape outside the subset character set"
              else decodeLoop (out ++ [codePoint number]) (rest.drop width)
termination_by text => text.length
decreasing_by all_goals grind

/-- `_decode_double`. -/
def decodeDouble (body : Text) : Read Text := decodeLoop [] body

/-- The search for the closing `"`: the body, and what is behind it. -/
def closeDouble : Text → Option (Text × Text)
  | [] => none
  | c :: rest =>
    if c == 0x22 then some ([], rest)
    else if c == 0x5C then
      match rest with
      | [] => none
      | d :: rest => (closeDouble rest).map fun (body, behind) => (c :: d :: body, behind)
    else (closeDouble rest).map fun (body, behind) => (c :: body, behind)

/-- The search for the closing `'`: the value, and what is behind it. -/
def closeSingle : Text → Option (Text × Text)
  | [] => none
  | c :: rest =>
    if c == 0x27 then
      match rest with
      | [] => some ([], [])
      | d :: rest =>
        if d == 0x27 then (closeSingle rest).map fun (out, behind) => (d :: out, behind) else some ([], d :: rest)
    else (closeSingle rest).map fun (out, behind) => (c :: out, behind)

/-- `_AFTER_QUOTE.match`. -/
def isAfterQuote (behind : Text) : Bool :=
  behind.isEmpty || (behind.head?.any isSpTab && (blank behind || comment behind))

/-! ## The reader -/

/-- `_check_depth`, with `MAX_DEPTH`. -/
def checkDepth (depth : Nat) : Read Unit := if depth > 64 then fail "nesting deeper than 64" else pure ()

/-- `_Reader`. -/
structure Reader where
  lines : List Text
  lastLineTerminated : Bool

/-- `_Reader.__init__`. -/
def Reader.init (text : Text) : Read Reader := do
  if text.any forbidden then fail "forbidden character"
  let lines := text.splitOn 0x0A
  let terminated := lines.length > 1 && lines.getLast? == some []
  let lines := if terminated then lines.dropLast else lines
  if lines.any fun line => (line.dropWhile (· == 0x20)).head? == some 0x09 then fail "tab in leading whitespace"
  return ⟨lines, terminated⟩

/-- `_ENTRY.match`: the key. -/
def matchEntry (body : Text) : Option Text :=
  let key := body.takeWhile fun c => !(c == 0x3A || isJsSpace c)
  match body.drop key.length with
  | c :: rest => if !key.isEmpty && c == 0x3A && rest.head?.all isSpTab then some key else none
  | [] => none

/-- `_BLOCK_HEADER.match`: the style, and how to chomp. -/
def matchBlockHeader : Text → Option (CodePoint × Option CodePoint)
  | [] => none
  | style :: rest =>
    if !(chars "|>").contains style then none
    else
      let chomp := rest.head?.filter fun c => c == 0x2B || c == 0x2D
      let rest := if chomp.isSome then rest.drop 1 else rest
      if rest.isEmpty || (rest.head?.any isSpTab && comment rest) then some (style, chomp) else none

/-- The lines of a block scalar; an empty one has no text. -/
def blockLines (folded : Bool) (contentIndent : Int) (line : Nat) : List Text → List (Option Text) →
    Read (List (Option Text))
  | [], content => pure content
  | text :: region, content => do
    if blank text then
      if (if contentIndent = -1 then 0 < text.length else (text.length : Int) > contentIndent) then
        fail "whitespace-only block scalar line beyond the content indentation"
      blockLines folded contentIndent (line + 1) region (content ++ [none])
    else
      log line .scalar
      if (indent text : Int) < contentIndent then fail "under-indented block scalar line"
      let piece := text.drop contentIndent.toNat
      if folded && piece.head?.any isSpTab then fail "more-indented line in a folded scalar"
      blockLines folded contentIndent (line + 1) region (content ++ [some piece])

/-- The lines of a folded scalar, joined; `first` is `k == 0`. -/
def fold (first : Bool) (pending : Nat) : List (Option Text) → Text
  | [] => []
  | none :: content => fold false (pending + 1) content
  | some piece :: content =>
    (if first then [] else if pending = 0 then [0x20] else List.replicate pending 0x0A) ++ piece ++ fold false 0 content

namespace Reader

variable (r : Reader)

/-- `next_content_indent`. -/
def nextContentIndent (start : Nat) : Int :=
  match (r.lines.drop start).find? fun line => !blankOrComment line with
  | some line => indent line
  | none => -1

/-- The lines that continue a plain scalar: the text, and the line behind. -/
def continuation (n : Nat) (text : Text) (blanks : Nat) (j : Nat) : Read (Text × Nat) :=
  if _h : j < r.lines.length then
    let line := r.lines[j]
    if blank line then continuation n text (blanks + 1) (j + 1)
    else if indent line ≤ n then pure (text, j)
    else if comment line then fail "comment inside a multi-line plain scalar"
    else
      let stripped := line.dropWhile (· == 0x20)
      let seg := plainLine stripped
      if seg != rstrip stripped then fail "comment after a continuation line"
      else do
        checkPlainSegment seg false
        log j .scalar
        continuation n (text ++ (if blanks = 0 then [0x20] else List.replicate blanks 0x0A) ++ seg) 0 (j + 1)
  else pure (text, j)
termination_by r.lines.length - j

/-- The search for the last line that is not blank, down to the first. -/
def lastContent (i : Nat) : Nat → Read Nat
  | 0 => pure 0
  | last + 1 => do
    if last + 1 > i then
      let line ← item r.lines (last + 1)
      if blank line then lastContent i last else return last + 1
    else return last + 1

/-- `same_line_scalar`. -/
def sameLineScalar (rest : Text) (allowContinuation : Bool) (i n : Nat) : Read (Value × Nat) :=
  match rest with
  | [] => plain
  | c :: behind =>
    if c == 0x22 then
      match closeDouble behind with
      | none => fail "unterminated or multi-line double-quoted scalar"
      | some (body, behind) =>
        if !isAfterQuote behind then fail "content after a double-quoted scalar"
        else do return (.string (← decodeDouble body), 0)
    else if c == 0x27 then
      match closeSingle behind with
      | none => fail "unterminated or multi-line single-quoted scalar"
      | some (out, behind) =>
        if !isAfterQuote behind then fail "content after a single-quoted scalar" else pure (.string out, 0)
    else plain
where
  plain : Read (Value × Nat) := do
    let first := plainLine rest
    checkPlainSegment first true
    -- a comment ends a plain scalar
    if !allowContinuation || (searchComment rest).2 then
      if r.nextContentIndent (i + 1) > n then fail "continuation not allowed here"
      return (resolvePlain first, 0)
    let (text, j) ← r.continuation n first 0 (i + 1)
    let last ← r.lastContent i (j - 1)
    return (resolvePlain text, last - i)

/-- `block_scalar`. -/
def blockScalar (header : Text) (i n : Nat) : Read (Value × Nat) :=
  match matchBlockHeader header with
  | none => fail "unsupported block scalar header"
  | some (style, chomp) => do
    let region := (r.lines.drop (i + 1)).takeWhile fun line => blank line || indent line > n
    let j := i + 1 + region.length
    let contentIndent : Int :=
      match region.find? fun line => !blank line with
      | some line => indent line
      | none => -1
    let content ← blockLines (style == 0x3E) contentIndent (i + 1) region []
    let kept := content.rdropWhile (·.isNone)
    let trailing := content.length - kept.length
    -- the last line counts only where a line break follows it
    let trailing := if trailing > 0 && j == r.lines.length && !r.lastLineTerminated then trailing - 1 else trailing
    let consumed := j - 1 - i
    if kept.isEmpty then
      return (.string (if chomp == some 0x2B then List.replicate trailing 0x0A else []), consumed)
    let body :=
      if style == 0x7C then List.intercalate [0x0A] (kept.map fun piece => piece.getD []) else fold true 0 kept
    if chomp == some 0x2D then return (.string body, consumed)
    if chomp == some 0x2B then return (.string (body ++ [0x0A] ++ List.replicate trailing 0x0A), consumed)
    return (.string (body ++ [0x0A]), consumed)

/-- The loop of `sequence`: the items, and the line behind. -/
def items (m : Nat) (values : List Value) (j : Nat) : Read (List Value × Nat) :=
  if _h : j < r.lines.length then
    let line := r.lines[j]
    if blankOrComment line then items m values (j + 1)
    else if indent line < m then pure (values, j)
    else if indent line > m then fail "unexpected deeper content in a sequence"
    else
      let body := line.drop m
      if !(chars "- ").isPrefixOf body then pure (values, j)
      else
        let rest := (body.drop 2).dropWhile isSpTab
        if rest.isEmpty || rest.head? == some 0x23 then fail "empty or nested sequence item"
        else do
          log j .item
          let (value, _) ← r.sameLineScalar rest false j m
          items m (values ++ [value]) (j + 1)
  else pure (values, j)
termination_by r.lines.length - j

/-- `sequence`; it is called where there is an item, so that `j` is behind `i`. -/
def sequence (i m depth : Nat) : Read (Value × Nat) := do
  checkDepth depth
  let (values, j) ← r.items m [] i
  return (.list values, j - 1 - i)

/-- A test of a line, behind an `and`. -/
def lookAt (condition : Bool) (k : Nat) (test : Text → Bool) : Read Bool :=
  if condition then do return test (← item r.lines k) else pure false

/-- The value of an entry without one on its line. -/
def following (nested : Nat → Nat → Nat → Read (Value × Nat)) (j n depth : Nat) : Read (Value × Nat) := do
  let k := j + 1 + ((r.lines.drop (j + 1)).takeWhile blankOrComment).length
  let nxt := r.nextContentIndent (j + 1)
  if ← r.lookAt (nxt > n) k fun line => (matchEntry (line.drop nxt.toNat)).isSome then
    let (value, consumed) ← nested k nxt.toNat (depth + 1)
    return (value, consumed + (k - j))
  else if ← r.lookAt (nxt ≥ n && nxt != -1) k fun line => (chars "- ").isPrefixOf (line.drop nxt.toNat) then
    let (value, consumed) ← r.sequence k nxt.toNat (depth + 1)
    return (value, consumed + (k - j))
  else if nxt > n then fail "a value on the following line is outside the subset"
  else return (.null, 0)

/-- One entry of `mapping`, on the line `j`. -/
def entry (nested : Nat → Nat → Nat → Read (Value × Nat)) (n depth : Nat) (entries : List (Text × Value)) (j : Nat)
    (line : Text) : Read (Text × Value × Nat) :=
  let body := line.drop n
  match matchEntry body with
  | none => fail "line is not a mapping entry"
  | some key => do
    if !isKey key || reservedKeys.contains key then fail "unsupported key"
    if entries.any fun entry => entry.1 == key then fail "duplicate key"
    let rest := body.drop (key.length + 1)
    if !rest.isEmpty && rest.head? != some 0x20 then fail "the separator after ':' must start with a space"
    let rest := rest.dropWhile isSpTab
    log j .entry
    let (value, consumed) ←
      if rest.isEmpty || rest.head? == some 0x23 then r.following nested j n depth
      else if rest.head?.any fun c => (chars "|>").contains c then r.blockScalar rest j n
      else r.sameLineScalar rest true j n
    return (key, value, consumed)

/-- The loop of `mapping`: the entries, and the line behind. -/
def entriesFrom (nested : Nat → Nat → Nat → Read (Value × Nat)) (n depth : Nat) (entries : List (Text × Value))
    (j : Nat) : Read (List (Text × Value) × Nat) :=
  if _h : j < r.lines.length then
    let line := r.lines[j]
    if blankOrComment line then entriesFrom nested n depth entries (j + 1)
    else if indent line < n then pure (entries, j)
    else if indent line > n then fail "unexpected indentation"
    else do
      let (key, value, consumed) ← r.entry nested n depth entries j line
      entriesFrom nested n depth (entries ++ [(key, value)]) (j + consumed + 1)
  else pure (entries, j)
termination_by r.lines.length - j

/-- `mapping`, for so many calls within each other; it is called where there is an
entry, so that `j` is behind `i`. -/
def mapping : Nat → Nat → Nat → Nat → Read (Value × Nat)
  | 0, _, _, _ => throw .recursionError
  | calls + 1, i, n, depth => do
    checkDepth depth
    let (entries, j) ← r.entriesFrom (mapping calls) n depth [] i
    return (.dict entries, j - 1 - i)

/-- `document`, with a stack for calls one within another. -/
def document (stack : Nat) : Read Value := do
  let k := (r.lines.takeWhile blankOrComment).length
  if k = r.lines.length then return .dict []
  if indent (← item r.lines k) ≠ 0 then fail "the top-level mapping must start at column 0"
  let (value, _) ← r.mapping stack k 0 1
  match value with
  | .dict entries => return .dict entries
  | _ => throw .assertionError

end Reader

/-- `_Reader(text).document()`. -/
def read (stack : Nat) (text : Text) : Read Value := do
  let r ← Reader.init text
  r.document stack

/-- `read_subset`. -/
def readSubset (stack : Nat) (text : Text) : Read Value :=
  tryCatch (read stack text) fun
    | .recursionError => fail "frontmatter nesting exceeds the reader's stack"
    | e => throw e

end MinionAgent.Frontmatter
