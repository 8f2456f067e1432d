import MinionAgent.Library.Utf8Ascii
import MinionAgent.Tools.LineSplitter

/-!
# MinionAgent.Execution.ReadTextLines

`read_text_lines` of both bindings, with no abort: the first lines of a file.
Python reads them from a text file with universal newlines
(`execution/filesystem.py`), Rust from the bytes up to each LF
(`execution/filesystem.rs`).

* `readTextLines_eq` — the Python lines are the first lines of the text;
* `rustReadTextLines_iff` — the Rust lines are, just when no CR in the pieces it
  reads stands alone;
* `line_splitting` — the splitters and the readers together.
-/

namespace MinionAgent

open Lines (IsBreak lines linesFrom dropLf)

/-- So many lines are enough. -/
def atLimit (maxLines : Option Int) (count : Nat) : Bool :=
  match maxLines with
  | none => false
  | some limit => limit ≤ count

/-- The first so many, or all. -/
def upTo {α : Type} (maxLines : Option Int) (all : List α) : List α :=
  match maxLines with
  | none => all
  | some limit => all.take limit.toNat

theorem upTo_of_nonpos {α : Type} {maxLines : Option Int} (h : maxLines.any (· ≤ 0) = true) (all : List α) :
    upTo maxLines all = [] := by
  cases maxLines with
  | none => cases h
  | some limit =>
    have hlimit : limit.toNat = 0 := by
      simp only [Option.any_some, decide_eq_true_eq] at h
      omega
    rw [upTo, hlimit, List.take_zero]

/-- A loop that appends each item it reads, until it has so many. -/
def appendUpTo {α β : Type} (maxLines : Option Int) (f : β → α) (result : List α) : List β → List α
  | [] => result
  | raw :: rest =>
    let result := result ++ [f raw]
    if atLimit maxLines result.length then result else appendUpTo maxLines f result rest

theorem appendUpTo_none {α β : Type} (f : β → α) (result : List α) (all : List β) :
    appendUpTo none f result all = result ++ all.map f := by
  induction all generalizing result with
  | nil => simp [appendUpTo]
  | cons raw rest ih => simp [appendUpTo, atLimit, ih]

theorem appendUpTo_some {α β : Type} {limit : Int} (f : β → α) {result : List α} (hresult : result.length < limit.toNat)
    (all : List β) :
    appendUpTo (some limit) f result all = result ++ (all.map f).take (limit.toNat - result.length) := by
  induction all generalizing result with
  | nil => simp [appendUpTo]
  | cons raw rest ih =>
    have hlength : (result ++ [f raw]).length = result.length + 1 := by simp
    have hsucc : limit.toNat - result.length = limit.toNat - (result.length + 1) + 1 := by omega
    rw [appendUpTo, List.map_cons, hsucc, List.take_succ_cons, hlength]
    cases hstop : atLimit (some limit) (result.length + 1) with
    | true =>
      have hzero : limit.toNat - (result.length + 1) = 0 := by
        simp only [atLimit, decide_eq_true_eq] at hstop
        omega
      rw [if_pos rfl, hzero, List.take_zero]
    | false =>
      have hmore : result.length + 1 < limit.toNat := by
        simp only [atLimit, decide_eq_false_iff_not] at hstop
        omega
      rw [if_neg (by simp), ih (hlength ▸ hmore), hlength]
      simp

/-- The loop stops when it has so many. -/
theorem appendUpTo_eq {α β : Type} {maxLines : Option Int} (hmax : maxLines.any (· ≤ 0) = false) (f : β → α)
    (all : List β) : appendUpTo maxLines f [] all = upTo maxLines (all.map f) := by
  cases maxLines with
  | none => exact appendUpTo_none f [] all
  | some limit =>
    have hpos : 0 < limit.toNat := by
      simp only [Option.any_some, decide_eq_false_iff_not] at hmax
      omega
    exact @appendUpTo_some _ _ limit f [] hpos all

/-! ## Python -/

/-- Universal newlines: each CR LF and each CR becomes a LF. -/
def universalNewlines : List Char → List Char
  | [] => []
  | c :: text => if c = '\r' then '\n' :: universalNewlines (dropLf text) else c :: universalNewlines text
termination_by text => text.length
decreasing_by
  all_goals
    have := Lines.length_dropLf_le text
    simp only [List.length_cons]
    omega

/-- The iteration over a text file: each line with its LF. -/
def fileIter (line : List Char) : List Char → List (List Char)
  | [] => if line = [] then [] else [line]
  | c :: text => if c = '\n' then (line ++ [c]) :: fileIter [] text else fileIter (line ++ [c]) text

/-- `raw_line.rstrip("\n")`. -/
def rstripLf (line : List Char) : List Char := (line.reverse.dropWhile (· == '\n')).reverse

/-- `_read_text_lines_sync`. -/
def readTextLines (data : List UInt8) (maxLines : Option Int) : List (List Char) :=
  if maxLines.any (· ≤ 0) then []
  else appendUpTo maxLines rstripLf [] (fileIter [] (universalNewlines (decodeUtf8 data)))

theorem rstripLf_of_not_mem {line : List Char} (h : '\n' ∉ line) : rstripLf line = line := by
  have hdrop : line.reverse.dropWhile (· == '\n') = line.reverse := by
    cases hr : line.reverse with
    | nil => rfl
    | cons last before =>
      have hlast : last ∈ line := List.mem_reverse.mp (hr ▸ List.mem_cons_self ..)
      exact List.dropWhile_cons_of_neg (by simpa using fun heq : last = '\n' => h (heq ▸ hlast))
  rw [rstripLf, hdrop, List.reverse_reverse]

theorem rstripLf_append {line : List Char} (h : '\n' ∉ line) : rstripLf (line ++ ['\n']) = line := by
  have hsame := rstripLf_of_not_mem h
  rw [rstripLf] at hsame ⊢
  rw [List.reverse_append, List.reverse_singleton, List.singleton_append, List.dropWhile_cons_of_pos (by rfl), hsame]

theorem universalNewlines_cr (text : List Char) :
    universalNewlines ('\r' :: text) = '\n' :: universalNewlines (dropLf text) := by
  rw [universalNewlines, if_pos rfl]

theorem universalNewlines_other {c : Char} (hc : c ≠ '\r') (text : List Char) :
    universalNewlines (c :: text) = c :: universalNewlines text := by
  rw [universalNewlines, if_neg hc]

/-- A text file gives the lines of its text. -/
theorem fileIter_universalNewlines {line : List Char} (hline : ∀ c ∈ line, ¬ IsBreak c) (text : List Char) :
    (fileIter line (universalNewlines text)).map rstripLf = linesFrom line text := by
  have hlf {line : List Char} (h : ∀ c ∈ line, ¬ IsBreak c) : '\n' ∉ line := fun hmem => h _ hmem (.inl rfl)
  induction line, text using Lines.linesFrom.induct with
  | case1 => simp [universalNewlines, fileIter, Lines.linesFrom_nil]
  | case2 line hne => simp [universalNewlines, fileIter, Lines.linesFrom_nil, hne, rstripLf_of_not_mem (hlf hline)]
  | case3 line text ih =>
    rw [universalNewlines_cr, fileIter, if_pos rfl, List.map_cons, rstripLf_append (hlf hline), ih (by simp),
      Lines.linesFrom_cr]
  | case4 line text _ ih =>
    rw [universalNewlines_other (by decide), fileIter, if_pos rfl, List.map_cons, rstripLf_append (hlf hline),
      ih (by simp), Lines.linesFrom_lf]
  | case5 line c text hcr hnl ih =>
    have hc : ¬ IsBreak c := not_or.mpr ⟨hnl, hcr⟩
    rw [universalNewlines_other hcr, fileIter, if_neg hnl, Lines.linesFrom_other hc]
    refine ih ?_
    intro c' hc'
    rcases List.mem_append.mp hc' with hc' | hc'
    · exact hline c' hc'
    · exact List.mem_singleton.mp hc' ▸ hc

/-- The Python binding returns the first lines of the text of the file. -/
theorem readTextLines_eq (data : List UInt8) (maxLines : Option Int) :
    readTextLines data maxLines = upTo maxLines (lines (decodeUtf8 data)) := by
  rw [readTextLines]
  cases hmax : maxLines.any (· ≤ 0) with
  | true => rw [if_pos rfl, upTo_of_nonpos hmax]
  | false =>
    rw [if_neg (by simp), appendUpTo_eq hmax, fileIter_universalNewlines (by simp)]
    rfl

/-! ## Rust -/

/-- LF. -/
def lf : UInt8 := 0x0A

/-- CR. -/
def cr : UInt8 := 0x0D

/-- `read_until(b'\n')`: the bytes through the first LF, or all, and the rest. -/
def readLine : List UInt8 → List UInt8 × List UInt8
  | [] => ([], [])
  | b :: data => if b = lf then ([b], data) else (b :: (readLine data).1, (readLine data).2)

theorem readLine_append (data : List UInt8) : (readLine data).1 ++ (readLine data).2 = data := by
  induction data with
  | nil => rfl
  | cons b data ih =>
    rw [readLine]
    split
    · rfl
    · exact congrArg (b :: ·) ih

theorem readLine_fst_ne_nil {data : List UInt8} (h : data ≠ []) : (readLine data).1 ≠ [] := by
  cases data with
  | nil => contradiction
  | cons b data =>
    rw [readLine]
    split <;> simp

theorem length_readLine_lt {data : List UInt8} (h : (readLine data).1 ≠ []) :
    (readLine data).2.length < data.length := by
  have hlength := congrArg List.length (readLine_append data)
  rw [List.length_append] at hlength
  have hpos := List.length_pos_iff.mpr h
  omega

/-- What is taken off the end of a line: a LF, and a CR before it. -/
def stripBreak (line : List UInt8) : List UInt8 :=
  if line.getLast? = some lf then
    if line.dropLast.getLast? = some cr then line.dropLast.dropLast else line.dropLast
  else line

/-- The loop of `read_text_lines`. -/
def rustLoop (maxLines : Option Int) (result : List (List Char)) (data : List UInt8) : List (List Char) :=
  let line := (readLine data).1
  if _h : line = [] then result
  else
    let result := result ++ [decodeUtf8 (stripBreak line)]
    if atLimit maxLines result.length then result else rustLoop maxLines result (readLine data).2
termination_by data.length
decreasing_by exact length_readLine_lt _h

/-- `LocalFileSystem::read_text_lines`. -/
def rustReadTextLines (data : List UInt8) (maxLines : Option Int) : List (List Char) :=
  if maxLines.any (· ≤ 0) then [] else rustLoop maxLines [] data

/-! ### The pieces -/

/-- The pieces of a file that end with a LF, and what is behind the last LF. -/
def pieces (data : List UInt8) : List (List UInt8) :=
  if _h : (readLine data).1 = [] then [] else (readLine data).1 :: pieces (readLine data).2
termination_by data.length
decreasing_by exact length_readLine_lt _h

theorem pieces_nil : pieces [] = [] := by
  rw [pieces]
  rfl

theorem pieces_of_ne_nil {data : List UInt8} (h : data ≠ []) :
    pieces data = (readLine data).1 :: pieces (readLine data).2 := by
  rw [pieces, dif_neg (readLine_fst_ne_nil h)]

theorem rustLoop_eq (maxLines : Option Int) (result : List (List Char)) (data : List UInt8) :
    rustLoop maxLines result data =
      appendUpTo maxLines (fun piece => decodeUtf8 (stripBreak piece)) result (pieces data) := by
  induction hn : data.length using Nat.strongRecOn generalizing data result with
  | _ n ih =>
    rw [rustLoop, pieces]
    by_cases hline : (readLine data).1 = []
    · simp [hline, appendUpTo]
    · simp only [hline, dite_false, appendUpTo, ih _ (hn ▸ length_readLine_lt hline) _ _ rfl]

/-- Every CR is directly before a LF. -/
def crBeforeLf : List UInt8 → Bool
  | [] => true
  | b :: rest => (b != cr || rest.head? == some lf) && crBeforeLf rest

theorem crBeforeLf_append {front : List UInt8} (h : cr ∉ front) (rest : List UInt8) :
    crBeforeLf (front ++ rest) = crBeforeLf rest := by
  induction front with
  | nil => rfl
  | cons b front ih =>
    have hb : (b != cr) = true := by simpa using fun heq : b = cr => h (heq ▸ List.mem_cons_self ..)
    rw [List.cons_append, crBeforeLf, hb, ih fun hmem => h (List.mem_cons_of_mem _ hmem)]
    simp

theorem crBeforeLf_of_not_mem {data : List UInt8} (h : cr ∉ data) : crBeforeLf data = true := by
  have happend := crBeforeLf_append h []
  rwa [List.append_nil] at happend

theorem head?_of_crBeforeLf {before after : List UInt8} (h : crBeforeLf (before ++ cr :: after) = true) :
    after.head? = some lf := by
  induction before with
  | nil => simp_all [crBeforeLf]
  | cons b before ih =>
    rw [List.cons_append, crBeforeLf, Bool.and_eq_true] at h
    exact ih h.2

/-- A piece: nothing in it is a LF but its last byte. -/
theorem readLine_cases (data : List UInt8) :
    ∃ body, lf ∉ body ∧ ((readLine data).1 = body ++ [lf] ∨ (readLine data).1 = body ∧ (readLine data).2 = []) := by
  induction data with
  | nil => exact ⟨[], by simp, .inr ⟨rfl, rfl⟩⟩
  | cons b data ih =>
    rw [readLine]
    by_cases hb : b = lf
    · exact ⟨[], by simp, .inl (by simp [hb])⟩
    · obtain ⟨body, hbody, hpiece⟩ := ih
      refine ⟨b :: body, by simp [hbody, Ne.symm hb], ?_⟩
      rw [if_neg hb]
      rcases hpiece with hpiece | ⟨hpiece, hrest⟩
      · exact .inl (by simp [hpiece])
      · exact .inr ⟨by simp [hpiece], hrest⟩

theorem stripBreak_body {body : List UInt8} (h : lf ∉ body) : stripBreak body = body :=
  if_neg fun hlast => h (List.mem_of_getLast? hlast)

theorem stripBreak_lf (body : List UInt8) :
    stripBreak (body ++ [lf]) = if body.getLast? = some cr then body.dropLast else body := by
  rw [stripBreak, List.getLast?_concat, if_pos rfl, List.dropLast_concat]

/-- What is left of a piece has a CR just when one stands alone. -/
theorem cr_mem_stripBreak (data : List UInt8) :
    cr ∈ stripBreak (readLine data).1 ↔ crBeforeLf (readLine data).1 = false := by
  -- a CR in front of a byte of the line is not before its LF
  have hlone {body : List UInt8} (rest : List UInt8) (hbody : lf ∉ body) (hmem : cr ∈ body)
      (hrest : rest.head? ≠ some lf) :
      crBeforeLf (body ++ rest) = false := by
    obtain ⟨before, after, rfl⟩ := List.append_of_mem hmem
    rw [← Bool.not_eq_true]
    intro hall
    rw [List.append_assoc, List.cons_append] at hall
    have hhead := head?_of_crBeforeLf hall
    cases after with
    | nil => exact hrest hhead
    | cons b after =>
      obtain rfl : b = lf := by simpa using hhead
      exact hbody (by simp)
  obtain ⟨body, hbody, hpiece | ⟨hpiece, -⟩⟩ := readLine_cases data
  · rw [hpiece, stripBreak_lf]
    by_cases hlast : body.getLast? = some cr
    · obtain ⟨front, rfl⟩ := List.getLast?_eq_some_iff.mp hlast
      rw [if_pos hlast, List.dropLast_concat, List.append_assoc]
      constructor
      · intro hmem
        exact hlone _ (fun hlf => hbody (List.mem_append_left _ hlf)) hmem (by decide)
      · intro hfalse
        by_contra hmem
        rw [crBeforeLf_append hmem] at hfalse
        exact absurd hfalse (by decide)
    · rw [if_neg hlast]
      constructor
      · intro hmem
        have hne : body ≠ [] := List.ne_nil_of_mem hmem
        have hsplit := List.dropLast_concat_getLast hne
        have hend : body.getLast hne ≠ cr := fun heq => hlast (by rw [List.getLast?_eq_some_getLast hne, heq])
        have hmem' : cr ∈ body.dropLast := by
          rw [← hsplit] at hmem
          rcases List.mem_append.mp hmem with hmem | hmem
          · exact hmem
          · exact absurd (List.mem_singleton.mp hmem).symm hend
        have hendlf : body.getLast hne ≠ lf := fun heq => hbody (heq ▸ List.getLast_mem hne)
        rw [← hsplit, List.append_assoc]
        exact hlone _ (fun hlf => hbody (List.dropLast_subset _ hlf)) hmem' (by simpa using hendlf)
      · intro hfalse
        by_contra hmem
        rw [crBeforeLf_append hmem] at hfalse
        exact absurd hfalse (by decide)
  · rw [hpiece, stripBreak_body hbody]
    constructor
    · intro hmem
      have hend := hlone [] hbody hmem (by simp)
      rwa [List.append_nil] at hend
    · intro hfalse
      by_contra hmem
      rw [crBeforeLf_of_not_mem hmem] at hfalse
      cases hfalse

/-- A decoded line without its break. -/
theorem not_isBreak_decodeUtf8 {data : List UInt8} (hlf : lf ∉ data) (hcr : cr ∉ data) :
    ∀ c ∈ decodeUtf8 data, ¬ IsBreak c := by
  rintro c hc (rfl | rfl)
  · obtain ⟨b, hb, heq⟩ := ascii_mem_of_mem_decodeUtf8 (k := 0x0A) (by decide) (by decide) hc
    exact hlf (UInt8.toNat_inj.mp (heq.trans (by decide : 0x0A = lf.toNat)) ▸ hb)
  · obtain ⟨b, hb, heq⟩ := ascii_mem_of_mem_decodeUtf8 (k := 0x0D) (by decide) (by decide) hc
    exact hcr (UInt8.toNat_inj.mp (heq.trans (by decide : 0x0D = cr.toNat)) ▸ hb)

theorem lines_decodeUtf8_nil : lines (decodeUtf8 []) = [] := by
  rw [lines, show decodeUtf8 [] = [] from rfl, Lines.linesFrom_nil, if_pos rfl]

/-- A piece in which no CR stands alone is a line of the text. -/
theorem lines_piece {data : List UInt8} (hdata : data ≠ []) (h : crBeforeLf (readLine data).1 = true) :
    lines (decodeUtf8 data) = decodeUtf8 (stripBreak (readLine data).1) :: lines (decodeUtf8 (readLine data).2) := by
  have hcr : cr ∉ stripBreak (readLine data).1 := by
    rw [cr_mem_stripBreak, h]
    simp
  obtain ⟨body, hbody, hpiece | ⟨hpiece, hrest⟩⟩ := readLine_cases data
  · have hsplit : data = body ++ lf :: (readLine data).2 := by
      have happend := readLine_append data
      rw [hpiece, List.append_assoc] at happend
      exact happend.symm
    have hdecode : decodeUtf8 data = decodeUtf8 body ++ '\n' :: decodeUtf8 (readLine data).2 := by
      conv_lhs => rw [hsplit]
      exact decodeUtf8_append_ascii body _ (by decide)
    rw [hpiece, stripBreak_lf] at hcr ⊢
    by_cases hlast : body.getLast? = some cr
    · obtain ⟨front, rfl⟩ := List.getLast?_eq_some_iff.mp hlast
      rw [if_pos hlast, List.dropLast_concat] at hcr ⊢
      have hfront : decodeUtf8 (front ++ [cr]) = decodeUtf8 front ++ ['\r'] :=
        decodeUtf8_append_ascii front [] (by decide)
      rw [hdecode, hfront, List.append_assoc, lines,
        Lines.linesFrom_append (not_isBreak_decodeUtf8 (fun hmem => hbody (List.mem_append_left _ hmem)) hcr)]
      exact Lines.linesFrom_cr ..
    · rw [if_neg hlast] at hcr ⊢
      rw [hdecode, lines, Lines.linesFrom_append (not_isBreak_decodeUtf8 hbody hcr)]
      exact Lines.linesFrom_lf ..
  · have hsplit : data = body := by
      have happend := readLine_append data
      rw [hpiece, hrest, List.append_nil] at happend
      exact happend.symm
    rw [hpiece, stripBreak_body hbody] at hcr ⊢
    rw [hrest, hsplit, lines_decodeUtf8_nil]
    exact Lines.lines_eq_singleton (decodeUtf8_ne_nil (hsplit ▸ hdata)) (not_isBreak_decodeUtf8 hbody hcr)

/-- A piece in which a CR stands alone is no line of the text. -/
theorem not_mem_lines {data : List UInt8} (h : crBeforeLf (readLine data).1 = false) (text : List Char) :
    decodeUtf8 (stripBreak (readLine data).1) ∉ lines text := by
  intro hmem
  obtain ⟨before, after, hsplit⟩ := List.append_of_mem ((cr_mem_stripBreak data).mpr h)
  have hcr : '\r' ∈ decodeUtf8 (stripBreak (readLine data).1) := by
    rw [hsplit, decodeUtf8_append_ascii before after (by decide)]
    exact List.mem_append_right _ (List.mem_cons_self ..)
  exact Lines.not_isBreak_of_mem_linesFrom (by simp) _ hmem _ hcr (.inr rfl)

theorem take_pieces_iff (count : Nat) (data : List UInt8) :
    ((pieces data).map fun piece => decodeUtf8 (stripBreak piece)).take count = (lines (decodeUtf8 data)).take count ↔
      ∀ piece ∈ (pieces data).take count, crBeforeLf piece = true := by
  induction count generalizing data with
  | zero => simp
  | succ count ih =>
    by_cases hdata : data = []
    · subst hdata
      simp [pieces_nil, lines_decodeUtf8_nil]
    · rw [pieces_of_ne_nil hdata, List.map_cons, List.take_succ_cons, List.take_succ_cons, List.forall_mem_cons]
      cases hpiece : crBeforeLf (readLine data).1 with
      | true => simp [lines_piece hdata hpiece, ih]
      | false =>
        have hne : decodeUtf8 (stripBreak (readLine data).1) ∉ (lines (decodeUtf8 data)).take (count + 1) :=
          fun hmem => not_mem_lines hpiece _ (List.mem_of_mem_take hmem)
        refine iff_of_false (fun heq => hne (heq ▸ List.mem_cons_self ..)) (by simp)

theorem pieces_iff (data : List UInt8) :
    ((pieces data).map fun piece => decodeUtf8 (stripBreak piece)) = lines (decodeUtf8 data) ↔
      ∀ piece ∈ pieces data, crBeforeLf piece = true := by
  have htake := take_pieces_iff ((pieces data).length + (lines (decodeUtf8 data)).length) data
  rwa [List.take_of_length_le (by simp), List.take_of_length_le (by simp), List.take_of_length_le (by simp)] at htake

/-- The Rust binding returns the first lines of the text of the file just when
no CR stands alone in the pieces they are read from. -/
theorem rustReadTextLines_iff (data : List UInt8) (maxLines : Option Int) :
    rustReadTextLines data maxLines = upTo maxLines (lines (decodeUtf8 data)) ↔
      ∀ piece ∈ upTo maxLines (pieces data), crBeforeLf piece = true := by
  rw [rustReadTextLines]
  cases hmax : maxLines.any (· ≤ 0) with
  | true => simp [upTo_of_nonpos hmax]
  | false =>
    rw [if_neg (by simp), rustLoop_eq, appendUpTo_eq hmax]
    cases maxLines with
    | none => exact pieces_iff data
    | some limit => exact take_pieces_iff limit.toNat data

/-! ## Splitters and readers -/

/-- Both splitters give the lines of the stream whatever its chunks are, the
decoder gives its text, and the Python reader returns the first of its lines;
the Rust reader does just when no CR stands alone in the pieces it reads. -/
theorem line_splitting (fed chunks : List (List UInt8)) (last data : List UInt8) (maxLines : Option Int) :
    LineSplitter.run {} fed = lines (decodeUtf8 fed.flatten) ∧
      RustLines.run {} chunks last = lines (decodeUtf8 (chunks.flatten ++ last)) ∧
      (RustDecoder.run {} chunks last).flatten = decodeUtf8 (chunks.flatten ++ last) ∧
      readTextLines data maxLines = upTo maxLines (lines (decodeUtf8 data)) ∧
      (rustReadTextLines data maxLines = upTo maxLines (lines (decodeUtf8 data)) ↔
        ∀ piece ∈ upTo maxLines (pieces data), crBeforeLf piece = true) :=
  ⟨LineSplitter.run_eq fed, RustLines.run_eq chunks last, RustDecoder.run_eq chunks last,
    readTextLines_eq data maxLines, rustReadTextLines_iff data maxLines⟩

/-- A file `a`, CR, `b` has the lines `a` and `b`, and one line in Rust. -/
theorem lone_cr_kept :
    rustReadTextLines [0x61, 0x0D, 0x62] none = [['a', '\r', 'b']] ∧
      upTo none (lines (decodeUtf8 [0x61, 0x0D, 0x62])) = [['a'], ['b']] := by
  constructor
  · rw [rustReadTextLines, if_neg (by decide), rustLoop_eq, pieces_of_ne_nil (by simp),
      show (readLine [0x61, 0x0D, 0x62]).2 = [] from rfl, pieces_nil]
    decide
  · rw [upTo, show decodeUtf8 [0x61, 0x0D, 0x62] = ['a', '\r', 'b'] by decide, lines,
      Lines.linesFrom_other (by decide), Lines.linesFrom_cr, show dropLf ['b'] = ['b'] from rfl,
      Lines.linesFrom_other (by decide), Lines.linesFrom_nil]
    decide

end MinionAgent
