import Mathlib.Data.List.Basic

/-!
# MinionAgent.Execution.ReadStream

The local end of a piped output stream (`ReadableStream` in
`execution/subprocess.py`, `LocalReadableStream` in `execution/subprocess.rs`):
what was received, and whether either end is closed.

* `readChunk` — one read;
* `Ends` — reading comes to the end of the stream after at most what was
  received, whatever happens at the other end;
* `ends_iff` — that is so when an end is closed.
-/

namespace MinionAgent.Subprocess

/-- A stream: the bytes received and not yet read, whether the other end is
closed by all who held it, whether the local end is open, and whether `close`
was called. -/
structure ReadStream where
  received : List UInt8 := []
  ended : Bool := false
  held : Bool := true
  closed : Bool := false
deriving DecidableEq

/-- What a read gives; it may have to wait. -/
inductive Chunk
  | pending
  | bytes (data : List UInt8)
  | eof
deriving DecidableEq

/-- The bytes a read gave. -/
def Chunk.data : Chunk → List UInt8
  | .bytes data => data
  | _ => []

namespace ReadStream

/-- `read_chunk`, of at most so many bytes: the end of the stream closes the local end. -/
def readChunk (size : Nat) (s : ReadStream) : Chunk × ReadStream :=
  if s.closed then (.eof, s)
  else if s.received ≠ [] then (.bytes (s.received.take size), { s with received := s.received.drop size })
  else if s.ended || !s.held then (.eof, { s with held := false })
  else (.pending, s)

/-- `close`: what was received is given up. -/
def close (s : ReadStream) : ReadStream := { s with closed := true, held := false }

/-- Closing the transport: what was received stays readable. -/
def release (s : ReadStream) : ReadStream := { s with held := false }

end ReadStream

/-- What happens to a stream: its other end writes or is closed, and its own is
read (a byte at least), closed or released. -/
inductive StreamEvent
  | output (data : List UInt8)
  | otherEndCloses
  | read (more : Nat)
  | close
  | release
deriving DecidableEq

namespace ReadStream

def step (s : ReadStream) : StreamEvent → ReadStream
  | .output data => if s.held && !s.ended then { s with received := s.received ++ data } else s
  | .otherEndCloses => { s with ended := true }
  | .read more => (s.readChunk (more + 1)).2
  | .close => s.close
  | .release => s.release

/-- What the reads among some events give. -/
def reads : ReadStream → List StreamEvent → List Chunk
  | _, [] => []
  | s, .read more :: es => (s.readChunk (more + 1)).1 :: reads (s.step (.read more)) es
  | s, e :: es => reads (s.step e) es

/-! ## The end of a stream -/

/-- Reading never waits, gives no more than what was received, and then the end
of the stream. -/
structure Ends (s : ReadStream) : Prop where
  settles : ∀ es, .pending ∉ s.reads es
  received : ∀ es, (s.reads es).flatMap Chunk.data <+: s.received
  eof : ∀ es, s.received.length < (s.reads es).length → .eof ∈ s.reads es

/-- One of the ends is closed. -/
def Shut (s : ReadStream) : Prop := s.closed = true ∨ s.held = false ∨ s.ended = true

instance (s : ReadStream) : Decidable s.Shut := inferInstanceAs (Decidable (_ ∨ _))

theorem Shut.step {s : ReadStream} (h : s.Shut) (e : StreamEvent) : (s.step e).Shut := by
  cases e with
  | output data =>
    rw [ReadStream.step]
    split
    · exact h
    · exact h
  | otherEndCloses => exact Or.inr (Or.inr rfl)
  | read more =>
    rw [ReadStream.step, readChunk]
    split
    · exact h
    · split
      · exact h
      · split
        · exact Or.inr (Or.inl rfl)
        · exact h
  | close => exact Or.inl rfl
  | release => exact Or.inr (Or.inl rfl)

/-- After `close` every read gives the end. -/
theorem reads_closed {s : ReadStream} (h : s.closed = true) (es : List StreamEvent) : ∀ c ∈ s.reads es, c = .eof := by
  induction es generalizing s with
  | nil => simp [reads]
  | cons e es ih =>
    cases e with
    | output data =>
      refine ih ?_
      rw [ReadStream.step]
      split <;> exact h
    | otherEndCloses => exact @ih (s.step .otherEndCloses) h
    | read more =>
      have hread : s.readChunk (more + 1) = (.eof, s) := if_pos h
      intro c hc
      rw [reads, ReadStream.step, hread, List.mem_cons] at hc
      exact hc.elim id (ih h c)
    | close => exact @ih (s.step .close) rfl
    | release => exact @ih (s.step .release) h

/-- Nothing more is received by a stream with a closed end. -/
theorem output_shut {s : ReadStream} (hopen : s.closed = false) (h : s.Shut) (data : List UInt8) :
    s.step (.output data) = s := by
  have hnone : ¬ (s.held && !s.ended) = true := by
    rcases h with hclosed | hheld | hended
    · rw [hopen] at hclosed
      cases hclosed
    · simp [hheld]
    · simp [hended]
  exact if_neg hnone

/-- A read of a stream with a closed end: the next bytes, or the end. -/
theorem readChunk_shut {s : ReadStream} (hopen : s.closed = false) (h : s.Shut) (more : Nat) :
    s.received ≠ [] ∧ s.readChunk (more + 1) =
        (.bytes (s.received.take (more + 1)), { s with received := s.received.drop (more + 1) }) ∨
      s.received = [] ∧ s.readChunk (more + 1) = (.eof, { s with held := false }) := by
  have hclosed : ¬ s.closed = true := by simp [hopen]
  by_cases hreceived : s.received = []
  · have hend : (s.ended || !s.held) = true := by
      rcases h with hclosed' | hheld | hended
      · exact absurd hclosed' hclosed
      · simp [hheld]
      · simp [hended]
    exact Or.inr ⟨hreceived, by rw [readChunk, if_neg hclosed, if_neg (not_not.mpr hreceived), if_pos hend]⟩
  · exact Or.inl ⟨hreceived, by rw [readChunk, if_neg hclosed, if_pos hreceived]⟩

theorem Shut.settles {s : ReadStream} (h : s.Shut) (es : List StreamEvent) : .pending ∉ s.reads es := by
  induction es generalizing s with
  | nil => simp [reads]
  | cons e es ih =>
    have hrest := ih (h.step e)
    cases e with
    | read more =>
      rw [reads, List.mem_cons, not_or]
      refine ⟨fun hpending => ?_, hrest⟩
      by_cases hclosed : s.closed = true
      · rw [readChunk, if_pos hclosed] at hpending
        cases hpending
      · rcases readChunk_shut (by simpa using hclosed) h more with ⟨-, hread⟩ | ⟨-, hread⟩
        · rw [hread] at hpending
          cases hpending
        · rw [hread] at hpending
          cases hpending
    | output data => exact hrest
    | otherEndCloses => exact hrest
    | close => exact hrest
    | release => exact hrest

theorem flatMap_data_of_eof {chunks : List Chunk} (h : ∀ c ∈ chunks, c = .eof) : chunks.flatMap Chunk.data = [] := by
  rw [List.flatMap_eq_nil_iff]
  intro c hc
  rw [h c hc]
  rfl

theorem Shut.received {s : ReadStream} (h : s.Shut) (es : List StreamEvent) :
    (s.reads es).flatMap Chunk.data <+: s.received := by
  by_cases hclosed : s.closed = true
  · rw [flatMap_data_of_eof (reads_closed hclosed es)]
    exact List.nil_prefix
  · rw [Bool.not_eq_true] at hclosed
    induction es generalizing s with
    | nil => exact List.nil_prefix
    | cons e es ih =>
      cases e with
      | output data =>
        rw [reads, output_shut hclosed h]
        · exact ih h hclosed
        · rintro more hread
          cases hread
      | otherEndCloses => exact @ih (s.step .otherEndCloses) (h.step _) hclosed
      | read more =>
        rw [reads, List.flatMap_cons]
        rcases readChunk_shut hclosed h more with ⟨-, hread⟩ | ⟨hnil, hread⟩
        · have htail := @ih { s with received := s.received.drop (more + 1) } h hclosed
          rw [ReadStream.step, hread]
          calc
            (Chunk.bytes (s.received.take (more + 1))).data ++ _
              <+: s.received.take (more + 1) ++ s.received.drop (more + 1) :=
                List.prefix_append_right_inj _ |>.mpr htail
            _ = s.received := List.take_append_drop _ _
        · have htail := @ih { s with held := false } (Or.inr (Or.inl rfl)) hclosed
          rw [ReadStream.step, hread]
          exact htail
      | close =>
        have hnil := flatMap_data_of_eof (@reads_closed (s.step .close) rfl es)
        rw [reads, hnil]
        · exact List.nil_prefix
        · rintro more hread
          cases hread
      | release => exact @ih (s.step .release) (h.step _) hclosed

/-- Every read that is not the end takes a byte. -/
theorem Shut.eof {s : ReadStream} (h : s.Shut) (es : List StreamEvent)
    (hmany : s.received.length < (s.reads es).length) :
    .eof ∈ s.reads es := by
  by_cases hclosed : s.closed = true
  · cases hreads : s.reads es with
    | nil => simp [hreads] at hmany
    | cons c cs =>
      have hfirst := reads_closed hclosed es c (by simp [hreads])
      simp [hfirst]
  · rw [Bool.not_eq_true] at hclosed
    induction es generalizing s with
    | nil => simp [reads] at hmany
    | cons e es ih =>
      cases e with
      | output data =>
        have hsame := output_shut hclosed h data
        have hrest : s.reads (.output data :: es) = s.reads es := by
          show (s.step (.output data)).reads es = s.reads es
          rw [hsame]
        rw [hrest] at hmany ⊢
        exact ih h hmany hclosed
      | otherEndCloses => exact @ih (s.step .otherEndCloses) (h.step _) hmany hclosed
      | read more =>
        rw [reads] at hmany ⊢
        rcases readChunk_shut hclosed h more with ⟨hsome, hread⟩ | ⟨hnil, hread⟩
        · rw [ReadStream.step, hread] at hmany ⊢
          have hpos := List.length_pos_iff.mpr hsome
          refine List.mem_cons_of_mem _ (@ih { s with received := s.received.drop (more + 1) } h ?_ hclosed)
          simp only [List.length_drop, List.length_cons] at hmany ⊢
          omega
        · rw [hread]
          exact List.mem_cons_self
      | close =>
        have hall := @reads_closed (s.step .close) rfl es
        show .eof ∈ (s.step .close).reads es
        replace hmany : s.received.length < ((s.step .close).reads es).length := hmany
        cases hreads : (s.step .close).reads es with
        | nil => simp [hreads] at hmany
        | cons c cs => simp [hall c (by simp [hreads])]
      | release => exact @ih (s.step .release) (h.step _) hmany hclosed

/-- A stream ends, whatever its other end does, exactly when an end is closed. -/
theorem ends_iff (s : ReadStream) : s.Ends ↔ s.Shut := by
  constructor
  · intro h
    by_contra hopen
    simp only [Shut, not_or, Bool.not_eq_true, Bool.not_eq_false] at hopen
    obtain ⟨hclosed, hheld, hended⟩ := hopen
    -- what was received is read, and the next read waits
    have hsettles := h.settles [.read s.received.length, .read 0]
    refine hsettles ?_
    have hdrop : s.received.drop (s.received.length + 1) = [] := List.drop_of_length_le (Nat.le_succ _)
    by_cases hreceived : s.received = []
    · simp [reads, readChunk, hclosed, hreceived, hended, hheld]
    · simp [reads, ReadStream.step, readChunk, hclosed, hreceived, hended, hheld, hdrop]
  · exact fun h => ⟨h.settles, h.received, h.eof⟩

end ReadStream

end MinionAgent.Subprocess
