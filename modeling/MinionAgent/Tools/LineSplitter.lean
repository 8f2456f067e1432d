import MinionAgent.Library.Lines
import MinionAgent.Library.Utf8Pending

/-!
# MinionAgent.Tools.LineSplitter

The lines of a child's output as they arrive in chunks: `LineSplitter`
(`tools/builtin/_readline.py`) and `Decoder`, `Lines`
(`tools/builtin/search_run.rs`).

* `LineSplitter.split_spec` — one piece of text, against the scanner of
  `Library.Lines`;
* `LineSplitter.run_eq`, `RustLines.run_eq` — both give the lines of the whole
  stream, whatever the chunks are;
* `RustDecoder.run_eq` — the same for the decoded text.
-/

namespace MinionAgent

open Lines (Scanner IsBreak)

/-! ## Python -/

/-- `LineSplitter`. -/
structure LineSplitter where
  decoder : Utf8Decoder := {}
  pending : List Char := []
  skipLf : Bool := false

namespace LineSplitter

/-- `buffer[start:index]`. -/
def slice (buffer : List Char) (start index : Nat) : List Char := (buffer.take index).drop start

/-- The loop of `_split` over the buffer: the lines, the start of the last one,
and `_skip_lf`. -/
def splitLoop (buffer : List Char) (start index : Nat) (lines : List (List Char)) (skipLf : Bool) :
    List (List Char) × Nat × Bool :=
  if _h : index < buffer.length then
    let char := buffer[index]
    if char = '\n' ∨ char = '\r' then
      let lines := lines ++ [slice buffer start index]
      if char = '\r' then
        if _h : index + 1 < buffer.length then
          if buffer[index + 1] = '\n' then splitLoop buffer (index + 2) (index + 2) lines skipLf
          else splitLoop buffer (index + 1) (index + 1) lines skipLf
        else splitLoop buffer (index + 1) (index + 1) lines true
      else splitLoop buffer (index + 1) (index + 1) lines skipLf
    else splitLoop buffer start (index + 1) lines skipLf
  else (lines, start, skipLf)
termination_by buffer.length - index

/-- The beginning of `_split`: the text without a LF that goes with the break
before it, and `_skip_lf`. -/
def skipped (self : LineSplitter) : List Char → List Char × Bool
  | [] => ([], self.skipLf)
  | c :: text => if self.skipLf then (if c = '\n' then text else c :: text, false) else (c :: text, self.skipLf)

/-- `LineSplitter._split`. -/
def split (self : LineSplitter) (text : List Char) (final : Bool) : List (List Char) × LineSplitter :=
  let buffer := self.pending ++ (self.skipped text).1
  let loop := splitLoop buffer 0 0 [] (self.skipped text).2
  let pending := buffer.drop loop.2.1
  if final && !pending.isEmpty then (loop.1 ++ [pending], { self with pending := [], skipLf := loop.2.2 })
  else (loop.1, { self with pending, skipLf := loop.2.2 })

/-- `LineSplitter.feed`. -/
def feed (self : LineSplitter) (data : List UInt8) : List (List Char) × LineSplitter :=
  let (text, decoder) := self.decoder.feed data
  { self with decoder }.split text false

/-- `LineSplitter.finish`. -/
def finish (self : LineSplitter) : List (List Char) × LineSplitter :=
  { self with decoder := {} }.split self.decoder.flush true

/-- The lines of some chunks, and of the end of the stream. -/
def run (self : LineSplitter) : List (List UInt8) → List (List Char)
  | [] => self.finish.1
  | data :: chunks => (self.feed data).1 ++ (self.feed data).2.run chunks

/-! ### Against the scanner -/

theorem slice_succ {buffer : List Char} {start index : Nat} (hstart : start ≤ index) (h : index < buffer.length) :
    slice buffer start (index + 1) = slice buffer start index ++ [buffer[index]] := by
  rw [slice, slice, List.take_succ_eq_append_getElem h, List.drop_append_of_le_length]
  rw [List.length_take]
  omega

theorem slice_self (buffer : List Char) (index : Nat) : slice buffer index index = [] := by
  rw [slice, List.drop_eq_nil_iff, List.length_take]
  omega

/-- Behind a break that is not followed by its LF, nothing is skipped. -/
theorem feed_skip {text : List Char} (h : text.head? ≠ some '\n') (hne : text ≠ []) :
    Scanner.feed { skipLf := true } text = Scanner.feed {} text := by
  cases text with
  | nil => contradiction
  | cons c text =>
    have hc : (c == '\n') = false := by simpa using h
    have hstep : Scanner.step { skipLf := true } c = Scanner.step {} c := by simp [Scanner.step, hc]
    simp only [Scanner.feed, hstep]

/-- The loop gives the scanner's lines, and stops where its line begins. -/
theorem splitLoop_spec (buffer : List Char) {start index : Nat} (hstart : start ≤ index)
    (hindex : index ≤ buffer.length) (lines : List (List Char)) :
    ∃ last, splitLoop buffer start index lines false =
        (lines ++ (Scanner.feed { line := slice buffer start index } (buffer.drop index)).1, last,
          (Scanner.feed { line := slice buffer start index } (buffer.drop index)).2.skipLf) ∧
      buffer.drop last = (Scanner.feed { line := slice buffer start index } (buffer.drop index)).2.line := by
  induction hn : buffer.length - index using Nat.strongRecOn generalizing start index lines with
  | _ n ih =>
    rw [splitLoop]
    by_cases hlt : index < buffer.length
    · rw [dif_pos hlt, List.drop_eq_getElem_cons hlt]
      by_cases hbreak : buffer[index] = '\n' ∨ buffer[index] = '\r'
      · have hstep : Scanner.step { line := slice buffer start index } buffer[index] =
            ([slice buffer start index], { skipLf := buffer[index] == '\r' }) := by
          simp [Scanner.step, hbreak.symm]
        rw [if_pos hbreak, Scanner.feed, hstep]
        by_cases hcr : buffer[index] = '\r'
        · rw [if_pos hcr, beq_iff_eq.mpr hcr]
          by_cases hnext : index + 1 < buffer.length
          · rw [dif_pos hnext]
            by_cases hlf : buffer[index + 1] = '\n'
            · obtain ⟨last, hloop, hline⟩ := ih _ (by omega) (Nat.le_refl (index + 2)) (by omega)
                (lines ++ [slice buffer start index]) rfl
              have hlfstep : Scanner.step { skipLf := true } buffer[index + 1] = ([], {}) := by
                simp [Scanner.step, hlf]
              rw [slice_self] at hloop hline
              rw [if_pos hlf, List.drop_eq_getElem_cons hnext, Scanner.feed, hlfstep]
              exact ⟨last, by simpa using hloop, by simpa using hline⟩
            · obtain ⟨last, hloop, hline⟩ := ih _ (by omega) (Nat.le_refl (index + 1)) (by omega)
                (lines ++ [slice buffer start index]) rfl
              have hskip := @feed_skip (buffer.drop (index + 1)) (by simp [hnext, hlf]) (by simp; omega)
              rw [slice_self] at hloop hline
              rw [if_neg hlf, hskip]
              exact ⟨last, by simpa using hloop, by simpa using hline⟩
          · have hend : index + 1 = buffer.length := by omega
            rw [dif_neg hnext, splitLoop, dif_neg (by omega)]
            exact ⟨index + 1, by simp [hend, Scanner.feed], by simp [hend, Scanner.feed]⟩
        · obtain ⟨last, hloop, hline⟩ := ih _ (by omega) (Nat.le_refl (index + 1)) (by omega)
            (lines ++ [slice buffer start index]) rfl
          rw [slice_self] at hloop hline
          rw [if_neg hcr, beq_eq_false_iff_ne.mpr hcr]
          exact ⟨last, by simpa using hloop, by simpa using hline⟩
      · have hstep : Scanner.step { line := slice buffer start index } buffer[index] =
            ([], { line := slice buffer start (index + 1) }) := by
          obtain ⟨hlf, hcr⟩ := not_or.mp hbreak
          simp [slice_succ hstart hlt, Scanner.step, hlf, hcr]
        obtain ⟨last, hloop, hline⟩ := ih _ (by omega) (Nat.le_succ_of_le hstart) (by omega) lines rfl
        rw [if_neg hbreak, Scanner.feed, hstep]
        exact ⟨last, by simpa using hloop, hline⟩
    · have hend : index = buffer.length := by omega
      rw [dif_neg hlt]
      exact ⟨start, by simp [hend, Scanner.feed], by simp [hend, Scanner.feed, slice]⟩

/-- The splitter has read what the scanner has. -/
structure Tracks (splitter : LineSplitter) (s : Scanner) : Prop where
  pending : splitter.pending = s.line
  skipLf : splitter.skipLf = s.skipLf
  unbroken : ∀ c ∈ s.line, ¬ IsBreak c
  skips : s.skipLf = true → s.line = []

variable {self : LineSplitter} {s : Scanner}

theorem Tracks.step (h : Tracks self s) (c : Char) :
    (∀ c' ∈ (s.step c).2.line, ¬ IsBreak c') ∧ ((s.step c).2.skipLf = true → (s.step c).2.line = []) := by
  unfold Scanner.step
  split
  · exact ⟨h.unbroken, by simp⟩
  · split
    · simp
    · next hc =>
      refine ⟨?_, by simp⟩
      intro c' hc'
      rcases List.mem_append.mp hc' with hc' | hc'
      · exact h.unbroken c' hc'
      · obtain rfl := List.mem_singleton.mp hc'
        exact fun hbreak => hc (Or.symm hbreak)

theorem Tracks.feed (h : Tracks self s) (text : List Char) :
    (∀ c ∈ (s.feed text).2.line, ¬ IsBreak c) ∧ ((s.feed text).2.skipLf = true → (s.feed text).2.line = []) := by
  induction text generalizing self s with
  | nil => exact ⟨h.unbroken, h.skips⟩
  | cons c text ih =>
    obtain ⟨hunbroken, hskips⟩ := h.step c
    exact @ih { pending := (s.step c).2.line, skipLf := (s.step c).2.skipLf } _ ⟨rfl, rfl, hunbroken, hskips⟩

/-- Text without a break is read into the line. -/
theorem feed_unbroken {front : List Char} (hfront : ∀ c ∈ front, ¬ IsBreak c) (line text : List Char) :
    Scanner.feed { line } (front ++ text) = Scanner.feed { line := line ++ front } text := by
  induction front generalizing line with
  | nil => simp
  | cons c front ih =>
    obtain ⟨hlf, hcr⟩ := not_or.mp (hfront c (List.mem_cons_self ..))
    have hstep : Scanner.step { line } c = ([], { line := line ++ [c] }) := by simp [Scanner.step, hlf, hcr]
    rw [List.cons_append, Scanner.feed, hstep]
    simp [ih fun c hc => hfront c (List.mem_cons_of_mem _ hc)]

/-- The loop of `_split` gives the scanner's lines, and its line is what is left of
the buffer. -/
theorem splitLoop_pending (h : Tracks self s) (text : List Char) :
    ∃ last, splitLoop (self.pending ++ (self.skipped text).1) 0 0 [] (self.skipped text).2 =
        ((s.feed text).1, last, (s.feed text).2.skipLf) ∧
      (self.pending ++ (self.skipped text).1).drop last = (s.feed text).2.line := by
  -- the loop reads a text that nothing is skipped of behind the pending line
  have hread (text : List Char) : ∃ last, splitLoop (self.pending ++ text) 0 0 [] false =
      ((Scanner.feed { line := s.line } text).1, last, (Scanner.feed { line := s.line } text).2.skipLf) ∧
        (self.pending ++ text).drop last = (Scanner.feed { line := s.line } text).2.line := by
    obtain ⟨last, hloop, hline⟩ := splitLoop_spec (self.pending ++ text) (Nat.le_refl 0) (Nat.zero_le _) []
    rw [slice_self, List.drop_zero, h.pending, feed_unbroken h.unbroken] at hloop hline
    rw [h.pending]
    exact ⟨last, hloop, hline⟩
  cases hskip : s.skipLf with
  | false =>
    have hscanner : s = { line := s.line } := by rw [← hskip]
    obtain ⟨last, hloop, hline⟩ := hread text
    rw [← hscanner] at hloop hline
    have hskipped : self.skipped text = (text, false) := by
      cases text <;> simp [skipped, h.skipLf, hskip]
    rw [hskipped]
    exact ⟨last, hloop, hline⟩
  | true =>
    have hline := h.skips hskip
    have hpending : self.pending = [] := h.pending.trans hline
    have hscanner : s = { skipLf := true } := by rw [← hskip, ← hline]
    rw [hline] at hread
    cases text with
    | nil =>
      have hskipped : self.skipped [] = ([], true) := by simp [skipped, h.skipLf, hskip]
      rw [hskipped, hpending]
      exact ⟨0, by simp [splitLoop, Scanner.feed, hskip], by simp [Scanner.feed, hline]⟩
    | cons c rest =>
      by_cases hc : c = '\n'
      · subst hc
        obtain ⟨last, hloop, hline⟩ := hread rest
        have hfeed : s.feed ('\n' :: rest) = Scanner.feed {} rest := by
          rw [hscanner]
          simp [Scanner.feed, Scanner.step]
        have hskipped : self.skipped ('\n' :: rest) = (rest, false) := by simp [skipped, h.skipLf, hskip]
        rw [hskipped, hfeed]
        exact ⟨last, hloop, hline⟩
      · obtain ⟨last, hloop, hline⟩ := hread (c :: rest)
        have hfeed : s.feed (c :: rest) = Scanner.feed {} (c :: rest) := by
          rw [hscanner]
          exact feed_skip (by simpa using hc) (by simp)
        have hskipped : self.skipped (c :: rest) = (c :: rest, false) := by simp [skipped, h.skipLf, hskip, hc]
        rw [hskipped, hfeed]
        exact ⟨last, hloop, hline⟩

/-- One piece of text gives the lines that end in it. -/
theorem split_spec (h : Tracks self s) (text : List Char) :
    (self.split text false).1 = (s.feed text).1 ∧ Tracks (self.split text false).2 (s.feed text).2 ∧
      (self.split text false).2.decoder = self.decoder := by
  obtain ⟨last, hloop, hline⟩ := splitLoop_pending h text
  obtain ⟨hunbroken, hskips⟩ := h.feed text
  simp only [split, hloop, Bool.false_and, Bool.false_eq_true, if_false]
  exact ⟨trivial, ⟨hline, rfl, hunbroken, hskips⟩, trivial⟩

/-- The last piece gives the line at the end too. -/
theorem split_final (h : Tracks self s) (text : List Char) :
    (self.split text true).1 = (s.feed text).1 ++ (s.feed text).2.flush := by
  obtain ⟨last, hloop, hline⟩ := splitLoop_pending h text
  simp only [split, hloop, hline, Scanner.flush]
  by_cases hnil : (s.feed text).2.line = []
  · simp [hnil]
  · simp [hnil]

theorem run_spec (h : Tracks self s) (chunks : List (List UInt8)) :
    self.run chunks =
      (s.feed (self.decoder.feed chunks.flatten).1).1 ++
        ((s.feed (self.decoder.feed chunks.flatten).1).2.feed (self.decoder.feed chunks.flatten).2.flush).1 ++
        ((s.feed (self.decoder.feed chunks.flatten).1).2.feed (self.decoder.feed chunks.flatten).2.flush).2.flush := by
  induction chunks generalizing self s with
  | nil =>
    have hfinal := @split_final { self with decoder := {} } s ⟨h.pending, h.skipLf, h.unbroken, h.skips⟩
      self.decoder.flush
    simpa [run, finish, Utf8Decoder.feed, Scanner.feed] using hfinal
  | cons data chunks ih =>
    obtain ⟨hlines, htracks, hdecoder⟩ := @split_spec { self with decoder := (self.decoder.feed data).2 } s
      ⟨h.pending, h.skipLf, h.unbroken, h.skips⟩ (self.decoder.feed data).1
    rw [run, feed, hlines, ih htracks, hdecoder, List.flatten_cons, Utf8Decoder.feed_append, Scanner.feed_append]
    simp only [List.append_assoc]

/-- The lines of a stream, whatever its chunks. -/
theorem run_eq (chunks : List (List UInt8)) : run {} chunks = Lines.lines (decodeUtf8 chunks.flatten) := by
  rw [run_spec (s := {}) ⟨rfl, rfl, by simp, by simp⟩, ← Scanner.feed_flush, decodeUtf8, Scanner.feed_append]

end LineSplitter

/-! ## Rust -/

/-- `Decoder`: the bytes that are not decoded yet. -/
structure RustDecoder where
  pending : List UInt8 := []

namespace RustDecoder

/-- `Decoder::feed`. -/
def feed (self : RustDecoder) (bytes : List UInt8) (finish : Bool) : List Char × RustDecoder :=
  let pending := self.pending ++ bytes
  let (out, pending) := drainUtf8 finish (pending.length + 1) pending
  (out, { pending })

/-- The texts of some chunks, of which the last one ends the stream. -/
def run (self : RustDecoder) : List (List UInt8) → List UInt8 → List (List Char)
  | [], last => [(self.feed last true).1]
  | bytes :: chunks, last => (self.feed bytes false).1 :: (self.feed bytes false).2.run chunks last

variable {self : RustDecoder} {d : Utf8Decoder}

theorem feed_spec (h : Held d self.pending) (bytes : List UInt8) :
    (self.feed bytes false).1 = (d.feed bytes).1 ∧ Held (d.feed bytes).2 (self.feed bytes false).2.pending :=
  h.drain bytes (Nat.lt_succ_self _)

theorem feed_finish (h : Held d self.pending) (bytes : List UInt8) :
    (self.feed bytes true).1 = (d.feed bytes).1 ++ (d.feed bytes).2.flush := by
  rw [feed, drainUtf8_finish (Nat.lt_succ_self _), decodeUtf8, Utf8Decoder.feed_append, h.feed]
  rfl

theorem run_spec (h : Held d self.pending) (chunks : List (List UInt8)) (last : List UInt8) :
    (self.run chunks last).flatten =
      (d.feed (chunks.flatten ++ last)).1 ++ (d.feed (chunks.flatten ++ last)).2.flush := by
  induction chunks generalizing self d with
  | nil => simpa [run] using feed_finish h last
  | cons bytes chunks ih =>
    obtain ⟨htext, hheld⟩ := feed_spec h bytes
    rw [run, List.flatten_cons, htext, ih hheld, List.flatten_cons, List.append_assoc, Utf8Decoder.feed_append d bytes,
      List.append_assoc]

/-- The decoded text of a stream, whatever its chunks. -/
theorem run_eq (chunks : List (List UInt8)) (last : List UInt8) :
    (run {} chunks last).flatten = decodeUtf8 (chunks.flatten ++ last) := run_spec .none chunks last

end RustDecoder

/-- `Lines`. -/
structure RustLines where
  decoder : RustDecoder := {}
  line : List Char := []
  skipLf : Bool := false

namespace RustLines

/-- One character of the loop of `feed`: the line it pushes. -/
def char (self : RustLines) (ch : Char) : Option (List Char) × RustLines :=
  if self.skipLf && ch == '\n' then (none, { self with skipLf := false })
  else if ch = '\r' ∨ ch = '\n' then (some self.line, { self with line := [], skipLf := ch == '\r' })
  else (none, { self with line := self.line ++ [ch], skipLf := false })

/-- The loop of `feed` over the characters. -/
def chars (self : RustLines) : List Char → List (List Char) × RustLines
  | [] => ([], self)
  | ch :: text => ((self.char ch).1.toList ++ ((self.char ch).2.chars text).1, ((self.char ch).2.chars text).2)

/-- `Lines::feed`. -/
def feed (self : RustLines) (bytes : List UInt8) (finish : Bool) : List (List Char) × RustLines :=
  let decoded := self.decoder.feed bytes finish
  let read := { self with decoder := decoded.2 }.chars decoded.1
  if finish && !read.2.line.isEmpty then (read.1 ++ [read.2.line], { read.2 with line := [] }) else read

/-- The lines of some chunks, of which the last one ends the stream. -/
def run (self : RustLines) : List (List UInt8) → List UInt8 → List (List Char)
  | [], last => (self.feed last true).1
  | bytes :: chunks, last => (self.feed bytes false).1 ++ (self.feed bytes false).2.run chunks last

variable {self : RustLines} {d : Utf8Decoder}

/-- The scanner that the lines are. -/
def scanner (self : RustLines) : Scanner := { line := self.line, skipLf := self.skipLf }

theorem chars_spec (self : RustLines) (text : List Char) :
    (self.chars text).1 = (self.scanner.feed text).1 ∧ (self.chars text).2.scanner = (self.scanner.feed text).2 ∧
      (self.chars text).2.decoder = self.decoder := by
  induction text generalizing self with
  | nil => exact ⟨rfl, rfl, rfl⟩
  | cons ch text ih =>
    have hchar : (self.char ch).1.toList = (self.scanner.step ch).1 ∧
        (self.char ch).2.scanner = (self.scanner.step ch).2 ∧ (self.char ch).2.decoder = self.decoder := by
      unfold char Scanner.step scanner
      split <;> [skip; split] <;> exact ⟨rfl, rfl, rfl⟩
    obtain ⟨hlines, hscanner, hdecoder⟩ := hchar
    obtain ⟨ihlines, ihscanner, ihdecoder⟩ := ih (self.char ch).2
    rw [chars, Scanner.feed, hlines, ihlines, ihscanner, ihdecoder, hscanner]
    exact ⟨rfl, rfl, hdecoder⟩

theorem feed_spec (h : Held d self.decoder.pending) (bytes : List UInt8) :
    (self.feed bytes false).1 = (self.scanner.feed (d.feed bytes).1).1 ∧
      (self.feed bytes false).2.scanner = (self.scanner.feed (d.feed bytes).1).2 ∧
      Held (d.feed bytes).2 (self.feed bytes false).2.decoder.pending := by
  obtain ⟨htext, hheld⟩ := RustDecoder.feed_spec h bytes
  obtain ⟨hlines, hscanner, hdecoder⟩ :=
    chars_spec { self with decoder := (self.decoder.feed bytes false).2 } (d.feed bytes).1
  simp only [feed, htext, Bool.false_and, Bool.false_eq_true, if_false]
  exact ⟨hlines, hscanner, hdecoder ▸ hheld⟩

theorem feed_finish (h : Held d self.decoder.pending) (bytes : List UInt8) :
    (self.feed bytes true).1 =
      (self.scanner.feed ((d.feed bytes).1 ++ (d.feed bytes).2.flush)).1 ++
        (self.scanner.feed ((d.feed bytes).1 ++ (d.feed bytes).2.flush)).2.flush := by
  obtain ⟨hlines, hscanner, -⟩ := chars_spec { self with decoder := (self.decoder.feed bytes true).2 }
    ((d.feed bytes).1 ++ (d.feed bytes).2.flush)
  have hline := congrArg Scanner.line hscanner
  simp only [scanner] at hline hlines
  simp only [feed, RustDecoder.feed_finish h, Bool.true_and, Scanner.flush, scanner, ← hline, ← hlines]
  split <;> simp_all

theorem run_spec (h : Held d self.decoder.pending) (chunks : List (List UInt8)) (last : List UInt8) :
    self.run chunks last =
      let text := (d.feed (chunks.flatten ++ last)).1 ++ (d.feed (chunks.flatten ++ last)).2.flush
      (self.scanner.feed text).1 ++ (self.scanner.feed text).2.flush := by
  induction chunks generalizing self d with
  | nil => exact feed_finish h last
  | cons bytes chunks ih =>
    obtain ⟨hlines, hscanner, hheld⟩ := feed_spec h bytes
    rw [run, hlines, ih hheld, hscanner, List.flatten_cons, List.append_assoc, Utf8Decoder.feed_append d bytes]
    simp only [List.append_assoc, Scanner.feed_append]

/-- The lines of a stream, whatever its chunks. -/
theorem run_eq (chunks : List (List UInt8)) (last : List UInt8) :
    run {} chunks last = Lines.lines (decodeUtf8 (chunks.flatten ++ last)) := by
  rw [run_spec (d := {}) .none, ← Scanner.feed_flush]
  rfl

end RustLines

end MinionAgent
