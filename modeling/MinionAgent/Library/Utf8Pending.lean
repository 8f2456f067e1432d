import MinionAgent.Library.Utf8

/-!
# MinionAgent.Library.Utf8Pending

The check of UTF-8 that says where a text goes wrong, and the decoder that keeps
the bytes it cannot decode yet.

* `fromUtf8` — the text, or how many bytes are valid and how many after them are
  not;
* `drainUtf8` — the loop of the decoder over the bytes it has;
* `drainUtf8_eq`, `drainUtf8_finish` — it gives what the streaming decoder gives.
-/

namespace MinionAgent

namespace Utf8Decoder

/-- A byte that cannot start a character, or not go on with the one there is. -/
def rejects (d : Utf8Decoder) (b : UInt8) : Bool :=
  if d.needed = 0 then 0x7F < b.toNat && b.toNat < 0xC2 || 0xF4 < b.toNat
  else b.toNat < d.lower || d.upper < b.toNat

end Utf8Decoder

/-- How many bytes are valid, and how many after them are not: none, where the
bytes end inside a character. -/
structure Utf8Error where
  validUpTo : Nat
  errorLen : Option Nat
deriving DecidableEq

/-- The check inside a character of which some bytes were read; a position counts from its start. -/
def checkUtf8 (d : Utf8Decoder) (held : Nat) : List UInt8 → Except Utf8Error (List Char)
  | [] => if d.needed = 0 then .ok [] else .error ⟨0, none⟩
  | b :: bytes =>
    if d.rejects b then .error ⟨0, some (max held 1)⟩
    else if (d.step b).2.needed = 0 then
      match checkUtf8 {} 0 bytes with
      | .ok text => .ok ((d.step b).1 ++ text)
      | .error e => .error { e with validUpTo := held + 1 + e.validUpTo }
    else checkUtf8 (d.step b).2 (held + 1) bytes

/-- `std::str::from_utf8`. -/
def fromUtf8 (bytes : List UInt8) : Except Utf8Error (List Char) := checkUtf8 {} 0 bytes

/-- The text of the bytes before an error. -/
def validText (bytes : List UInt8) (e : Utf8Error) : List Char :=
  match fromUtf8 (bytes.take e.validUpTo) with
  | .ok text => text
  | .error _ => []

/-- The loop of the decoder: the text of the bytes that are there, and the bytes that stay. -/
def drainUtf8 (finish : Bool) : Nat → List UInt8 → List Char × List UInt8
  | 0, pending => ([], pending)
  | fuel + 1, pending =>
    match fromUtf8 pending with
    | .ok text => (text, [])
    | .error e =>
      match e.errorLen with
      | some length =>
        let rest := drainUtf8 finish fuel (pending.drop (e.validUpTo + length))
        (validText pending e ++ Utf8Decoder.replacement :: rest.1, rest.2)
      | none =>
        if finish then (validText pending e ++ [Utf8Decoder.replacement], [])
        else (validText pending e, pending.drop e.validUpTo)

/-! ## The bytes of a character -/

/-- The bytes of a character that is not complete, and the decoder behind them. -/
inductive Held : Utf8Decoder → List UInt8 → Prop
  | none : Held {} []
  | more {d : Utf8Decoder} {bytes : List UInt8} {b : UInt8} (held : Held d bytes) (accepted : d.rejects b = false)
      (open' : (d.step b).2.needed ≠ 0) : Held (d.step b).2 (bytes ++ [b])

namespace Utf8Decoder

variable {d : Utf8Decoder} {b : UInt8}

/-- A byte that is not rejected gives a character, or none. -/
theorem step_cases (h : d.rejects b = false) : (d.step b).2 = {} ∨ (d.step b).2.needed ≠ 0 ∧ (d.step b).1 = [] := by
  unfold rejects at h
  unfold step start
  split at h
  · rename_i hneeded
    rw [if_pos hneeded]
    split
    · exact Or.inl rfl
    · split
      · exact Or.inr ⟨by simp, rfl⟩
      · split
        · exact Or.inr ⟨by simp, rfl⟩
        · split
          · exact Or.inr ⟨by simp, rfl⟩
          · exact Or.inl rfl
  · rename_i hneeded
    rw [if_neg hneeded]
    have hinside : ¬ (b.toNat < d.lower ∨ d.upper < b.toNat) := by
      simpa [not_or] using h
    rw [if_neg hinside]
    split
    · exact Or.inl rfl
    · exact Or.inr ⟨by show d.needed - 1 ≠ 0; omega, rfl⟩

/-- A byte that cannot start a character is replaced. -/
theorem step_rejected_start (h : rejects {} b = true) : step {} b = ([replacement], {}) := by
  unfold rejects at h
  unfold step start
  simp only [if_true, Bool.or_eq_true, Bool.and_eq_true, decide_eq_true_eq] at h
  rw [if_pos rfl, if_neg (by omega), if_neg (by omega), if_neg (by omega), if_neg (by omega)]

/-- A byte that cannot go on with the character starts over. -/
theorem step_rejected (hneeded : d.needed ≠ 0) (h : d.rejects b = true) :
    d.step b = (replacement :: (step {} b).1, (step {} b).2) := by
  unfold rejects at h
  rw [if_neg hneeded, Bool.or_eq_true, decide_eq_true_eq, decide_eq_true_eq] at h
  have hstart : step {} b = start b.toNat := if_pos rfl
  rw [hstart, step, if_neg hneeded, if_pos h]

theorem feed_cons (d : Utf8Decoder) (b : UInt8) (bytes : List UInt8) :
    d.feed (b :: bytes) = ((d.step b).1 ++ ((d.step b).2.feed bytes).1, ((d.step b).2.feed bytes).2) := rfl

end Utf8Decoder

variable {d : Utf8Decoder} {bytes : List UInt8} {e : Utf8Error}

theorem Held.needed (h : Held d bytes) : d = {} ∧ bytes = [] ∨ d.needed ≠ 0 ∧ bytes ≠ [] := by
  cases h with
  | none => exact Or.inl ⟨rfl, rfl⟩
  | more held accepted hopen => exact Or.inr ⟨hopen, by simp⟩

theorem Held.feed (h : Held d bytes) : Utf8Decoder.feed {} bytes = ([], d) := by
  induction h with
  | none => rfl
  | more held accepted hopen ih =>
    rename_i d bytes b
    rw [Utf8Decoder.feed_append, ih]
    rcases Utf8Decoder.step_cases accepted with hdone | ⟨-, hnone⟩
    · rw [hdone] at hopen
      exact absurd rfl hopen
    · simp [Utf8Decoder.feed, hnone]

/-- The check of the bytes behind those of a character. -/
theorem Held.check {before : List UInt8} (h : Held d before) (bytes : List UInt8) :
    fromUtf8 (before ++ bytes) = checkUtf8 d before.length bytes := by
  induction h generalizing bytes with
  | none => rfl
  | more held accepted hopen ih =>
    rename_i d before b
    rw [List.append_assoc, List.singleton_append, ih, checkUtf8, if_neg (by simp [accepted]), if_neg hopen]
    simp

/-! ## The check and the decoder -/

/-- A text that is valid is what the decoder gives, which is then between characters. -/
theorem feed_of_check_ok {before bytes : List UInt8} {text : List Char} (h : Held d before)
    (hcheck : checkUtf8 d before.length bytes = .ok text) : d.feed bytes = (text, {}) := by
  induction bytes generalizing d before text with
  | nil =>
    rw [checkUtf8] at hcheck
    rcases h.needed with ⟨rfl, -⟩ | ⟨hneeded, -⟩
    · cases hcheck
      rfl
    · rw [if_neg hneeded] at hcheck
      cases hcheck
  | cons b bytes ih =>
    rw [checkUtf8] at hcheck
    split at hcheck
    · cases hcheck
    · rename_i haccepted
      rw [Bool.not_eq_true] at haccepted
      rcases Utf8Decoder.step_cases haccepted with hdone | ⟨hopen, hnone⟩
      · rw [hdone, if_pos rfl] at hcheck
        split at hcheck
        · rename_i rest hrest
          cases hcheck
          rw [Utf8Decoder.feed_cons, hdone, @ih {} [] rest .none hrest]
        · cases hcheck
      · rw [if_neg hopen] at hcheck
        have hmore := @ih _ (before ++ [b]) text (h.more haccepted hopen) (by simpa using hcheck)
        rw [Utf8Decoder.feed_cons, hnone, hmore, List.nil_append]

/-- What an error says of the bytes behind those of a character. -/
structure ErrorAt (d : Utf8Decoder) (before bytes : List UInt8) (e : Utf8Error) : Prop where
  valid : ∃ text, fromUtf8 ((before ++ bytes).take e.validUpTo) = .ok text
  invalid : ∀ length, e.errorLen = some length → 0 < length ∧
    d.feed bytes = (validText (before ++ bytes) e ++ Utf8Decoder.replacement ::
        (Utf8Decoder.feed {} ((before ++ bytes).drop (e.validUpTo + length))).1,
      (Utf8Decoder.feed {} ((before ++ bytes).drop (e.validUpTo + length))).2)
  incomplete : e.errorLen = none →
    (d.feed bytes).1 = validText (before ++ bytes) e ∧ (d.feed bytes).2.needed ≠ 0 ∧
      Held (d.feed bytes).2 ((before ++ bytes).drop e.validUpTo)

/-- The bytes of a complete character are valid. -/
theorem fromUtf8_complete {before : List UInt8} {b : UInt8} (h : Held d before)
    (haccepted : d.rejects b = false) (hdone : (d.step b).2 = {}) (bytes : List UInt8) :
    fromUtf8 (before ++ b :: bytes) =
      match fromUtf8 bytes with
      | .ok text => .ok ((d.step b).1 ++ text)
      | .error e => .error { e with validUpTo := before.length + 1 + e.validUpTo } := by
  rw [h.check, checkUtf8, if_neg (by simp [haccepted]), hdone, if_pos rfl]
  rfl

theorem validText_eq {text : List Char} (h : fromUtf8 (bytes.take e.validUpTo) = .ok text) :
    validText bytes e = text := by
  rw [validText, h]

theorem validText_zero (bytes : List UInt8) (errorLen : Option Nat) : validText bytes ⟨0, errorLen⟩ = [] := rfl

/-- An error behind a complete character. -/
theorem ErrorAt.complete {before bytes : List UInt8} {b : UInt8} (h : Held d before)
    (haccepted : d.rejects b = false) (hdone : (d.step b).2 = {}) (hrest : ErrorAt {} [] bytes e) :
    ErrorAt d before (b :: bytes) { e with validUpTo := before.length + 1 + e.validUpTo } := by
  have hsplit : before ++ b :: bytes = (before ++ [b]) ++ bytes := by simp
  have hlength : (before ++ [b]).length = before.length + 1 := by simp
  have hdrop : ∀ n, (before ++ b :: bytes).drop (before.length + 1 + n) = bytes.drop n := by
    intro n
    rw [hsplit, ← hlength, List.drop_append]
    simp
  have htake : (before ++ b :: bytes).take (before.length + 1 + e.validUpTo) =
      before ++ b :: bytes.take e.validUpTo := by
    rw [hsplit, ← hlength, List.take_append, List.take_of_length_le (by simp)]
    simp
  obtain ⟨text, htext⟩ := hrest.valid
  rw [List.nil_append] at htext
  have hvalid : fromUtf8 ((before ++ b :: bytes).take (before.length + 1 + e.validUpTo)) =
      .ok ((d.step b).1 ++ text) := by
    rw [htake, fromUtf8_complete h haccepted hdone, htext]
  have hshown : validText (before ++ b :: bytes) { e with validUpTo := before.length + 1 + e.validUpTo } =
      (d.step b).1 ++ validText ([] ++ bytes) e := by
    rw [validText_eq hvalid, List.nil_append, validText_eq htext]
  refine ⟨⟨_, hvalid⟩, fun length hlen => ?_, fun hnone => ?_⟩
  · obtain ⟨hpos, hfeed⟩ := hrest.invalid length hlen
    refine ⟨hpos, ?_⟩
    rw [Utf8Decoder.feed_cons, hdone, hfeed, hshown, Nat.add_assoc, hdrop, List.nil_append]
    simp
  · obtain ⟨hfeed, hneeded, hheld⟩ := hrest.incomplete hnone
    rw [Utf8Decoder.feed_cons, hdone, hshown, hdrop]
    exact ⟨by rw [hfeed], hneeded, hheld⟩

theorem errorAt_of_check {before bytes : List UInt8} (h : Held d before)
    (hcheck : checkUtf8 d before.length bytes = .error e) : ErrorAt d before bytes e := by
  induction bytes generalizing d before e with
  | nil =>
    rw [checkUtf8] at hcheck
    split at hcheck
    · cases hcheck
    · rename_i hneeded
      cases hcheck
      refine ⟨⟨[], rfl⟩, fun length hlen => ?_, fun _ => ⟨rfl, hneeded, ?_⟩⟩
      · cases hlen
      · simpa [Utf8Decoder.feed] using h
  | cons b bytes ih =>
    rw [checkUtf8] at hcheck
    split at hcheck
    · rename_i hrejected
      cases hcheck
      refine ⟨⟨[], rfl⟩, fun length hlen => ?_, fun hnone => by cases hnone⟩
      cases hlen
      refine ⟨by omega, ?_⟩
      rw [validText_zero, Nat.zero_add, List.nil_append]
      rcases h.needed with ⟨rfl, rfl⟩ | ⟨hneeded, hsome⟩
      · rw [Utf8Decoder.feed_cons, Utf8Decoder.step_rejected_start hrejected]
        rfl
      · -- what was read of the character is replaced, and the byte starts over
        have hlength : 0 < before.length := List.length_pos_iff.mpr hsome
        have hmax : max before.length 1 = before.length := by omega
        rw [hmax, List.drop_left, Utf8Decoder.feed_cons, Utf8Decoder.step_rejected hneeded hrejected,
          Utf8Decoder.feed_cons]
        rfl
    · rename_i haccepted
      rw [Bool.not_eq_true] at haccepted
      rcases Utf8Decoder.step_cases haccepted with hdone | ⟨hopen, hnone⟩
      · rw [hdone, if_pos rfl] at hcheck
        split at hcheck
        · cases hcheck
        · rename_i e' hrest
          cases hcheck
          exact (@ih {} e' [] .none hrest).complete h haccepted hdone
      · rw [if_neg hopen] at hcheck
        have hmore := @ih _ e (before ++ [b]) (h.more haccepted hopen) (by simpa using hcheck)
        have hfeed : d.feed (b :: bytes) = (d.step b).2.feed bytes := by
          rw [Utf8Decoder.feed_cons, hnone, List.nil_append]
        obtain ⟨hvalid, hinvalid, hincomplete⟩ := hmore
        rw [List.append_assoc, List.singleton_append] at hvalid hinvalid hincomplete
        exact ⟨hvalid, hfeed ▸ hinvalid, hfeed ▸ hincomplete⟩

/-! ## The loop -/

theorem errorAt_of_fromUtf8 (h : fromUtf8 bytes = .error e) : ErrorAt {} [] bytes e := errorAt_of_check .none h

theorem feed_of_fromUtf8 {text : List Char} (h : fromUtf8 bytes = .ok text) :
    Utf8Decoder.feed {} bytes = (text, {}) := @feed_of_check_ok {} [] bytes text .none h

theorem ne_nil_of_fromUtf8 (h : fromUtf8 bytes = .error e) : bytes ≠ [] := by
  rintro rfl
  cases h

/-- The loop gives the text that the streaming decoder gives, and keeps the bytes of the character it is in. -/
theorem drainUtf8_eq {fuel : Nat} {pending : List UInt8} (hfuel : pending.length < fuel) :
    (drainUtf8 false fuel pending).1 = (Utf8Decoder.feed {} pending).1 ∧
      Held (Utf8Decoder.feed {} pending).2 (drainUtf8 false fuel pending).2 := by
  induction fuel generalizing pending with
  | zero => omega
  | succ fuel ih =>
    rw [drainUtf8]
    cases hcheck : fromUtf8 pending with
    | ok text =>
      rw [feed_of_fromUtf8 hcheck]
      exact ⟨rfl, .none⟩
    | error e =>
      have herror := errorAt_of_fromUtf8 hcheck
      cases hlen : e.errorLen with
      | some length =>
        obtain ⟨hpos, hfeed⟩ := herror.invalid length hlen
        rw [List.nil_append] at hfeed
        have hshorter : (pending.drop (e.validUpTo + length)).length < fuel := by
          have hsome : 0 < pending.length := List.length_pos_iff.mpr (ne_nil_of_fromUtf8 hcheck)
          rw [List.length_drop]
          omega
        obtain ⟨htext, hheld⟩ := ih hshorter
        simp only [hlen]
        rw [hfeed]
        exact ⟨by rw [htext], hheld⟩
      | none =>
        obtain ⟨htext, -, hheld⟩ := herror.incomplete hlen
        rw [List.nil_append] at htext hheld
        simp only [hlen, Bool.false_eq_true, if_false]
        exact ⟨htext.symm, hheld⟩

/-- At the end of the input the loop gives the text that remains, and keeps nothing. -/
theorem drainUtf8_finish {fuel : Nat} {pending : List UInt8} (hfuel : pending.length < fuel) :
    drainUtf8 true fuel pending = (decodeUtf8 pending, []) := by
  induction fuel generalizing pending with
  | zero => omega
  | succ fuel ih =>
    rw [drainUtf8]
    cases hcheck : fromUtf8 pending with
    | ok text =>
      rw [decodeUtf8, feed_of_fromUtf8 hcheck]
      simp [Utf8Decoder.flush]
    | error e =>
      have herror := errorAt_of_fromUtf8 hcheck
      cases hlen : e.errorLen with
      | some length =>
        obtain ⟨hpos, hfeed⟩ := herror.invalid length hlen
        rw [List.nil_append] at hfeed
        have hshorter : (pending.drop (e.validUpTo + length)).length < fuel := by
          have hsome : 0 < pending.length := List.length_pos_iff.mpr (ne_nil_of_fromUtf8 hcheck)
          rw [List.length_drop]
          omega
        simp only [hlen]
        rw [ih hshorter, decodeUtf8, decodeUtf8, hfeed]
        simp
      | none =>
        obtain ⟨htext, hneeded, -⟩ := herror.incomplete hlen
        rw [List.nil_append] at htext
        simp only [hlen, if_true]
        rw [decodeUtf8, htext, Utf8Decoder.flush, if_neg hneeded]

/-- Bytes of a character that is not complete, and those that come after them. -/
theorem Held.drain {held : List UInt8} (h : Held d held) (bytes : List UInt8) {fuel : Nat}
    (hfuel : (held ++ bytes).length < fuel) :
    (drainUtf8 false fuel (held ++ bytes)).1 = (d.feed bytes).1 ∧
      Held (d.feed bytes).2 (drainUtf8 false fuel (held ++ bytes)).2 := by
  have hdrain := drainUtf8_eq hfuel
  rw [Utf8Decoder.feed_append, h.feed, List.nil_append] at hdrain
  exact hdrain

end MinionAgent
