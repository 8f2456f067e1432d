import MinionAgent.Library.JsonText
import Mathlib.Data.List.TakeWhile

/-!
# MinionAgent.Library.JsonRoundTrip

What `json.dumps` writes, `json.loads` reads back.

* strings by their code units (`scanString_quote`), numbers by their token
  (`numberToken_append`), values by induction (`parseValue_text?`);
* `loads_dumps` — a JSON value is read back with its keys sorted.
-/

namespace Py.Json

/-! ## Strings are read back -/

theorem hexValue?_hexDigit : ∀ n < 16, hexValue? (hexDigit n) = some n := by decide

/-- The closing quote ends a literal. -/
theorem scanUnits_quoteMark (cs : List Char) : scanUnits (quoteMark :: cs) = some ([], cs) := by
  rw [scanUnits.eq_def]
  exact if_pos rfl

theorem scanUnits_short {e c : Char} (hu : e ≠ 'u') (hslash : e ≠ '/') (h : shortEscapes.lookup e = some c)
    (cs : List Char) :
    scanUnits (backslash :: e :: cs) = (scanUnits cs).map fun p => (.char c :: p.1, p.2) := by
  have hmark : backslash ≠ quoteMark := by decide
  rw [scanUnits.eq_def]
  simp only [if_neg hmark, if_true, if_neg hu, if_neg hslash, h, Option.bind_eq_bind, Option.bind_some]
  cases scanUnits cs <;> rfl

theorem scanUnits_plain {c : Char} (hquote : c ≠ quoteMark) (hback : c ≠ backslash) (hspace : ' ' ≤ c)
    (cs : List Char) : scanUnits (c :: cs) = (scanUnits cs).map fun p => (.char c :: p.1, p.2) := by
  rw [scanUnits.eq_def]
  simp only [if_neg hquote, if_neg hback, if_neg (not_lt.mpr hspace), Option.bind_eq_bind]
  cases scanUnits cs <;> rfl

/-- The four digits of a unit read as the unit. -/
theorem hex4?_hex4 {n : Nat} (h : n < 65536) :
    hex4? (hexDigit (n / 4096 % 16)) (hexDigit (n / 256 % 16)) (hexDigit (n / 16 % 16)) (hexDigit (n % 16)) =
      some n := by
  have hdigit : ∀ m, hexValue? (hexDigit (m % 16)) = some (m % 16) :=
    fun m => hexValue?_hexDigit _ (Nat.mod_lt m (by omega))
  simp only [hex4?, hdigit, Option.bind_eq_bind, Option.bind_some, Option.pure_def, Option.some.injEq]
  omega

theorem scanUnits_escapeUnit {n : Nat} (h : n < 65536) (cs : List Char) :
    scanUnits (escapeUnit n ++ cs) = (scanUnits cs).map fun p => (.escaped n :: p.1, p.2) := by
  have hmark : backslash ≠ quoteMark := by decide
  simp only [escapeUnit, hex4, List.cons_append, List.nil_append]
  rw [scanUnits.eq_def]
  simp only [if_neg hmark, if_true, hex4?_hex4 h, Option.bind_eq_bind, Option.bind_some]
  cases scanUnits cs <;> rfl

/-- What the escape of a character is scanned as. -/
def unitsOf (c : Char) : List CodeUnit :=
  match shortEscape? c with
  | some _ => [.char c]
  | none =>
    if ' ' ≤ c ∧ c ≤ '~' then [.char c]
    else if c.toNat < 0x10000 then [.escaped c.toNat]
    else [.escaped (highSurrogate c.toNat), .escaped (lowSurrogate c.toNat)]

theorem lookup_shortEscape {c e : Char} (h : shortEscape? c = some e) :
    shortEscapes.lookup e = some c ∧ e ≠ 'u' ∧ e ≠ '/' := by
  have htable : ∀ escape ∈ shortEscapes,
      shortEscapes.lookup escape.1 = some escape.2 ∧ escape.1 ≠ 'u' ∧ escape.1 ≠ '/' := by decide
  obtain ⟨escape, hfind, rfl⟩ := Option.map_eq_some_iff.mp h
  have hmem := List.mem_of_find?_eq_some hfind
  have hmeant : escape.2 = c := by simpa using List.find?_some hfind
  rw [← hmeant]
  exact htable escape hmem

theorem ne_of_shortEscape?_none {c : Char} (h : shortEscape? c = none) : c ≠ quoteMark ∧ c ≠ backslash := by
  constructor
  · rintro rfl
    exact absurd h (by decide)
  · rintro rfl
    exact absurd h (by decide)

theorem scanUnits_escapeChar (c : Char) (cs : List Char) :
    scanUnits (escapeChar c ++ cs) = (scanUnits cs).map fun p => (unitsOf c ++ p.1, p.2) := by
  unfold escapeChar unitsOf
  cases hshort : shortEscape? c with
  | some e =>
    obtain ⟨hlookup, hu, hslash⟩ := lookup_shortEscape hshort
    exact scanUnits_short hu hslash hlookup cs
  | none =>
    dsimp only
    split
    · next hprintable =>
      obtain ⟨hquote, hback⟩ := ne_of_shortEscape?_none hshort
      exact scanUnits_plain hquote hback hprintable.1 cs
    · split
      · next hbmp =>
        rw [scanUnits_escapeUnit hbmp]
        rfl
      · next hastral =>
        have hscalar : c.toNat < 0xd800 ∨ 0xdfff < c.toNat ∧ c.toNat < 0x110000 := c.valid
        have hhigh : highSurrogate c.toNat < 65536 := by
          rw [highSurrogate]
          omega
        have hlow : lowSurrogate c.toNat < 65536 := by
          rw [lowSurrogate]
          omega
        rw [List.append_assoc, scanUnits_escapeUnit hhigh, scanUnits_escapeUnit hlow, Option.map_map]
        rfl

/-- The surrogates of an astral code point make it up. -/
theorem combine_surrogates {n : Nat} (h : 65536 ≤ n) : combine (highSurrogate n) (lowSurrogate n) = n := by
  have hdiv : (n - 65536) / 1024 * 1024 + (n - 65536) % 1024 = n - 65536 := Nat.div_add_mod' _ _
  unfold combine highSurrogate lowSurrogate
  omega

/-- A character is joined from what it was scanned as. -/
theorem joinUnits_unitsOf (c : Char) (units : List CodeUnit) :
    joinUnits (unitsOf c ++ units) = (joinUnits units).map (c :: ·) := by
  have hscalar : c.toNat < 0xd800 ∨ 0xdfff < c.toNat ∧ c.toNat < 0x110000 := c.valid
  unfold unitsOf
  cases shortEscape? c with
  | some e => rfl
  | none =>
    dsimp only
    split
    · rfl
    · split
      · next hbmp =>
        have hhigh : isHigh c.toNat = false := by
          simp only [isHigh, Bool.and_eq_false_iff, decide_eq_false_iff_not]
          omega
        have hlow : isLow c.toNat = false := by
          simp only [isLow, Bool.and_eq_false_iff, decide_eq_false_iff_not]
          omega
        simp only [List.cons_append, List.nil_append]
        rw [joinUnits.eq_def]
        simp [hhigh, hlow]
      · next hastral =>
        have hhigh : isHigh (highSurrogate c.toNat) = true := by
          rw [isHigh, highSurrogate, Bool.and_eq_true]
          constructor <;> apply decide_eq_true <;> omega
        have hlow : isLow (lowSurrogate c.toNat) = true := by
          rw [isLow, lowSurrogate, Bool.and_eq_true]
          constructor <;> apply decide_eq_true <;> omega
        have hcombine := combine_surrogates (Nat.le_of_not_lt hastral)
        simp only [List.cons_append, List.nil_append]
        rw [joinUnits.eq_def]
        simp only [hhigh, if_true, hlow, hcombine, Char.ofNat_toNat]

theorem scanUnits_flatMap (cs rest : List Char) :
    scanUnits (cs.flatMap escapeChar ++ quoteMark :: rest) = some (cs.flatMap unitsOf, rest) := by
  induction cs with
  | nil => exact scanUnits_quoteMark rest
  | cons c cs ih =>
    rw [List.flatMap_cons, List.append_assoc, scanUnits_escapeChar, ih]
    rfl

theorem joinUnits_flatMap (cs : List Char) : joinUnits (cs.flatMap unitsOf) = some cs := by
  induction cs with
  | nil => rfl
  | cons c cs ih =>
    rw [List.flatMap_cons, joinUnits_unitsOf, ih]
    rfl

/-- A quoted string is read back. -/
theorem scanString_quote (s : String) (rest : List Char) :
    scanString (s.toList.flatMap escapeChar ++ quoteMark :: rest) = some (s, rest) := by
  simp only [scanString, scanUnits_flatMap, joinUnits_flatMap, Option.bind_eq_bind, Option.bind_some,
    Option.pure_def, String.ofList_toList]

/-! ## Numbers are read back -/

/-- A text that starts with the end of a value, or with nothing. -/
def Stops (cs : List Char) : Prop := ∀ c ∈ cs.head?, c = ',' ∨ c = ']' ∨ c = '}'

theorem stops_nil : Stops [] := by simp [Stops]

theorem stops_cons {c : Char} (h : c = ',' ∨ c = ']' ∨ c = '}') (cs : List Char) : Stops (c :: cs) := by
  intro d hd
  rw [List.head?_cons, Option.mem_some] at hd
  rwa [← hd]

/-- The end of a value continues no number. -/
theorem Stops.head_ne {c : Char} {cs : List Char} (h : Stops (c :: cs)) :
    c.isDigit = false ∧ c ≠ '.' ∧ c ≠ 'e' ∧ c ≠ 'E' ∧ c ≠ '-' ∧ c ≠ '+' ∧ c ≠ '0' := by
  rcases h c rfl with rfl | rfl | rfl <;> decide

section

variable {rest : List Char}

theorem digits_append (cs : List Char) (h : Stops rest) : digits (cs ++ rest) = digits cs := by
  have hrest : rest.takeWhile Char.isDigit = [] := by
    cases rest with
    | nil => rfl
    | cons c rest => rw [List.takeWhile_cons, h.head_ne.1]; rfl
  rw [digits, digits, List.takeWhile_append, hrest, List.append_nil]
  split
  · next hall => exact ((List.takeWhile_prefix _).eq_of_length hall).symm
  · rfl

theorem intPart_append (cs : List Char) (h : Stops rest) : intPart (cs ++ rest) = intPart cs := by
  cases cs with
  | nil =>
    cases rest with
    | nil => rfl
    | cons c rest =>
      have hne := h.head_ne
      rw [List.nil_append, intPart.eq_def, intPart.eq_def]
      split
      · next heq => exact absurd (List.cons.inj heq).1 hne.2.2.2.2.2.2
      · exact digits_append [] h
  | cons c cs =>
    by_cases hzero : c = '0'
    · subst hzero
      rfl
    · have hint : ∀ cs, intPart (c :: cs) = digits (c :: cs) := by
        intro cs
        rw [intPart.eq_def]
        split
        · next heq => exact absurd (List.cons.inj heq).1 hzero
        · rfl
      rw [List.cons_append, hint, hint, ← List.cons_append, digits_append _ h]

theorem fracPart_append (cs : List Char) (h : Stops rest) : fracPart (cs ++ rest) = fracPart cs := by
  cases cs with
  | nil =>
    cases rest with
    | nil => rfl
    | cons c rest =>
      rw [List.nil_append, fracPart.eq_def]
      split
      · next heq => exact absurd (List.cons.inj heq).1 h.head_ne.2.1
      · rfl
  | cons c cs =>
    by_cases hpoint : c = '.'
    · subst hpoint
      simp only [List.cons_append, fracPart, digits_append cs h]
    · have hfrac : ∀ cs, fracPart (c :: cs) = [] := by
        intro cs
        rw [fracPart.eq_def]
        split
        · next heq => exact absurd (List.cons.inj heq).1 hpoint
        · rfl
      rw [List.cons_append, hfrac, hfrac]

theorem expPart_append (cs : List Char) (h : Stops rest) : expPart (cs ++ rest) = expPart cs := by
  match cs with
  | [] =>
    match rest, h with
    | [], _ => rfl
    | [c], _ => rfl
    | c :: d :: rest, h =>
      obtain ⟨-, -, he, hE, -⟩ := h.head_ne
      simp [expPart, he, hE]
  | [e] =>
    match rest, h with
    | [], _ => rfl
    | c :: rest, h =>
      obtain ⟨hdigit, -, -, -, hminus, hplus, -⟩ := h.head_ne
      simp [expPart, hminus, hplus, digits, hdigit]
  | e :: sign :: cs =>
    have hsigned : digits (sign :: (cs ++ rest)) = digits (sign :: cs) := digits_append (sign :: cs) h
    simp only [List.cons_append, expPart, digits_append cs h, hsigned]

theorem prefix_intPart (cs : List Char) : intPart cs <+: cs := by
  unfold intPart
  split
  · exact ⟨_, rfl⟩
  · exact List.takeWhile_prefix _

theorem prefix_fracPart (cs : List Char) : fracPart cs <+: cs := by
  unfold fracPart
  split
  · split
    · exact List.nil_prefix
    · exact List.cons_prefix_cons.mpr ⟨rfl, List.takeWhile_prefix _⟩
  · exact List.nil_prefix

/-- What follows a value does not change the number token before it. -/
theorem numberToken_append (cs : List Char) (h : Stops rest) : numberToken (cs ++ rest) = numberToken cs := by
  have hsign : (if (cs ++ rest).head? = some '-' then ['-'] else []) = if cs.head? = some '-' then ['-'] else [] := by
    cases cs with
    | nil =>
      cases rest with
      | nil => rfl
      | cons c rest => simp [h.head_ne.2.2.2.2.1]
    | cons c cs => rfl
  have hsignLength : (if cs.head? = some '-' then ['-'] else []).length ≤ cs.length := by
    cases cs with
    | nil => simp
    | cons c cs => split <;> simp
  unfold numberToken
  rw [hsign]
  generalize (if cs.head? = some '-' then ['-'] else []) = sign at hsignLength
  dsimp only
  rw [List.drop_append_of_le_length hsignLength, intPart_append _ h]
  have hint := (prefix_intPart (cs.drop sign.length)).length_le
  generalize intPart (cs.drop sign.length) = int at hint
  rw [List.length_drop] at hint
  rw [List.drop_append_of_le_length (by rw [List.length_append]; omega), fracPart_append _ h]
  have hfrac := (prefix_fracPart (cs.drop (sign ++ int).length)).length_le
  generalize fracPart (cs.drop (sign ++ int).length) = frac at hfrac
  rw [List.length_drop, List.length_append] at hfrac
  rw [List.drop_append_of_le_length (by rw [List.length_append, List.length_append]; omega), expPart_append _ h]

end

/-- A positive number starts with another digit than zero. -/
theorem head?_toDigits {n : Nat} (h : 0 < n) : (Nat.toDigits 10 n).head? ≠ some '0' := by
  induction n using Nat.strongRecOn with
  | ind n ih =>
    by_cases hsmall : n < 10
    · have hdigits : ∀ n < 10, 0 < n → (Nat.toDigits 10 n).head? ≠ some '0' := by decide
      exact hdigits n hsmall h
    · have hquotient : 0 < n / 10 := by omega
      have hhead := ih (n / 10) (by omega) hquotient
      rw [Nat.toDigits_of_base_le (by omega) (by omega), List.head?_append_of_ne_nil _ Nat.toDigits_ne_nil]
      exact hhead

/-- The digits of a number are an integer part. -/
theorem intPart_toDigits (n : Nat) : intPart (Nat.toDigits 10 n) = Nat.toDigits 10 n := by
  by_cases hzero : n = 0
  · subst hzero
    rfl
  · have hhead := head?_toDigits (Nat.pos_of_ne_zero hzero)
    rw [intPart.eq_def]
    split
    · next heq => rw [heq] at hhead; exact absurd rfl hhead
    · exact List.takeWhile_eq_self_iff.mpr fun c hc => Nat.isDigit_of_mem_toDigits (by omega) (by omega) hc

/-- An `int` is written as one number token. -/
theorem numberToken_intRepr (i : Int) : numberToken (intRepr i) = some (intRepr i, false) := by
  have hne : Nat.toDigits 10 i.natAbs ≠ [] := Nat.toDigits_ne_nil
  have hminus : (Nat.toDigits 10 i.natAbs).head? ≠ some '-' := by
    cases hdigits : Nat.toDigits 10 i.natAbs with
    | nil => simp
    | cons c cs =>
      have hdigit : c.isDigit = true :=
        Nat.isDigit_of_mem_toDigits (b := 10) (n := i.natAbs) (by omega) (by omega) (by rw [hdigits]; simp)
      rintro heq
      rw [List.head?_cons, Option.some.injEq] at heq
      rw [heq] at hdigit
      exact absurd hdigit (by decide)
  unfold intRepr
  split
  · simp [numberToken, intPart_toDigits, hne, fracPart, expPart]
  · simp [numberToken, hminus, intPart_toDigits, hne, fracPart, expPart]

theorem readInt_intRepr (i : Int) : readInt (intRepr i) = i := by
  unfold intRepr
  split
  · next hneg =>
    simp only [readInt, Nat.ofDigitChars_ten_toDigits]
    omega
  · next hpos =>
    cases hdigits : Nat.toDigits 10 i.natAbs with
    | nil => exact absurd hdigits Nat.toDigits_ne_nil
    | cons c cs =>
      have hdigit : c.isDigit = true :=
        Nat.isDigit_of_mem_toDigits (b := 10) (n := i.natAbs) (by omega) (by omega) (by rw [hdigits]; simp)
      rw [readInt.eq_def]
      split
      · next heq =>
        rw [(List.cons.inj heq).1] at hdigit
        exact absurd hdigit (by decide)
      · rw [← hdigits, Nat.ofDigitChars_ten_toDigits]
        omega

/-! ## Values are read back -/

theorem numberToken_head {c : Char} {cs token : List Char} {isFloat : Bool}
    (h : numberToken (c :: cs) = some (token, isFloat)) : c = '-' ∨ c.isDigit = true := by
  by_contra hneither
  rw [not_or] at hneither
  obtain ⟨hminus, hdigit⟩ := hneither
  have hzero : c ≠ '0' := by
    rintro rfl
    exact hdigit (by decide)
  have hint : intPart (c :: cs) = [] := by
    rw [intPart.eq_def]
    split
    · next heq => exact absurd (List.cons.inj heq).1 hzero
    · simp [digits, hdigit]
  simp [numberToken, hminus, hint] at h

/-- How a value starts: with nothing that is skipped or ends a container. -/
def StartsValue (cs : List Char) : Prop :=
  ∃ c rest, cs = c :: rest ∧ isSpace c = false ∧ c ≠ ']' ∧ c ≠ '}'

theorem startsValue_of_numberToken {cs token : List Char} {isFloat : Bool}
    (h : numberToken cs = some (token, isFloat)) : StartsValue cs := by
  cases cs with
  | nil => simp [numberToken, intPart, digits] at h
  | cons c cs =>
    have hchar : isSpace c = false ∧ c ≠ ']' ∧ c ≠ '}' := by
      rcases numberToken_head h with rfl | hdigit
      · decide
      · refine ⟨?_, ?_, ?_⟩
        · rw [← Bool.not_eq_true]
          intro hspace
          simp only [isSpace, Bool.or_eq_true, beq_iff_eq] at hspace
          rcases hspace with ((rfl | rfl) | rfl) | rfl <;> exact absurd hdigit (by decide)
        · rintro rfl
          exact absurd hdigit (by decide)
        · rintro rfl
          exact absurd hdigit (by decide)
    exact ⟨c, cs, rfl, hchar⟩

theorem PyFloat.numberToken_repr (f : PyFloat) : numberToken f.repr.toList = some (f.repr.toList, true) :=
  eq_of_beq f.isRepr

theorem startsValue_scalarText (s : Scalar) : StartsValue (scalarText s) := by
  cases s with
  | none => exact ⟨_, _, rfl, by decide⟩
  | bool b => cases b <;> exact ⟨_, _, rfl, by decide⟩
  | int i => exact startsValue_of_numberToken (numberToken_intRepr i)
  | float f => exact startsValue_of_numberToken (PyFloat.numberToken_repr f)
  | str s => exact ⟨quoteMark, _, rfl, by decide⟩

/-- A text that can start a value. -/
theorem startsValue_text? {value : Value} {text : List Char} (h : text? value = some text) : StartsValue text := by
  cases value with
  | scalar s =>
    rw [text?, Option.some.injEq] at h
    exact h ▸ startsValue_scalarText s
  | list xs =>
    cases xs with
    | nil =>
      rw [text?, Option.some.injEq] at h
      exact ⟨'[', _, h.symm, by decide⟩
    | cons x xs =>
      simp only [text?, Option.bind_eq_bind, Option.bind_eq_some_iff, Option.pure_def, Option.some.injEq] at h
      obtain ⟨_, -, _, -, rfl⟩ := h
      exact ⟨'[', _, rfl, by decide⟩
  | tuple xs =>
    cases xs with
    | nil =>
      rw [text?, Option.some.injEq] at h
      exact ⟨'[', _, h.symm, by decide⟩
    | cons x xs =>
      simp only [text?, Option.bind_eq_bind, Option.bind_eq_some_iff, Option.pure_def, Option.some.injEq] at h
      obtain ⟨_, -, _, -, rfl⟩ := h
      exact ⟨'[', _, rfl, by decide⟩
  | dict items =>
    cases items with
    | nil =>
      rw [text?, Option.some.injEq] at h
      exact ⟨'\x7b', _, h.symm, by decide⟩
    | cons item items =>
      simp only [text?, Option.bind_eq_bind, Option.bind_eq_some_iff, Option.pure_def, Option.some.injEq] at h
      obtain ⟨_, -, _, -, rfl⟩ := h
      exact ⟨'\x7b', _, rfl, by decide⟩
  | mixedDict items key => cases h
  | other typeName => cases h

/-- A value after a separator is found behind its space. -/
theorem StartsValue.skipSpace {text : List Char} (h : StartsValue text) (rest : List Char) :
    skipSpace (' ' :: (text ++ rest)) = text ++ rest := by
  obtain ⟨c, cs, rfl, hspace, -⟩ := h
  simp [Json.skipSpace, List.dropWhile_cons, isSpace] at hspace ⊢
  simp [hspace]

section

variable (floats : FloatReader) {rest : List Char}

theorem literal?_of_number {cs token : List Char} {isFloat : Bool} (h : numberToken cs = some (token, isFloat)) :
    literal? cs = none := by
  cases cs with
  | nil => rfl
  | cons c cs =>
    have hne : c ≠ 'n' ∧ c ≠ 't' ∧ c ≠ 'f' := by
      rcases numberToken_head h with rfl | hdigit
      · decide
      · refine ⟨?_, ?_, ?_⟩ <;> rintro rfl <;> exact absurd hdigit (by decide)
    simp [literal?, List.isPrefixOf, hne.1.symm, hne.2.1.symm, hne.2.2.symm]

/-- A value that is one token. -/
theorem parseValue_number {cs : List Char} {isFloat : Bool} (h : numberToken cs = some (cs, isFloat))
    (hrest : Stops rest) (fuel : Nat) :
    parseValue floats (fuel + 1) (cs ++ rest) =
      if isFloat then (floats.read (String.ofList cs)).map fun f => (.float f, rest)
      else some (.int (readInt cs), rest) := by
  have happend := (numberToken_append cs hrest).trans h
  obtain ⟨c, tail, rfl, -⟩ := startsValue_of_numberToken h
  have hne : c ≠ quoteMark ∧ c ≠ '[' ∧ c ≠ '\x7b' := by
    rcases numberToken_head h with rfl | hdigit
    · decide
    · refine ⟨?_, ?_, ?_⟩ <;> rintro rfl <;> exact absurd hdigit (by decide)
  have hliteral := literal?_of_number happend
  rw [List.cons_append] at happend hliteral ⊢
  rw [parseValue, if_neg hne.1, if_neg hne.2.1, if_neg hne.2.2, hliteral, Option.none_or, number?, happend]
  cases isFloat <;> simp

theorem parseValue_scalar (s : Scalar) (hrest : Stops rest) (fuel : Nat) :
    parseValue floats (fuel + 1) (scalarText s ++ rest) = some (.scalar s, rest) := by
  cases s with
  | none => simp [scalarText, parseValue, literal?, quoteMark]
  | bool b => cases b <;> simp [scalarText, parseValue, literal?, quoteMark]
  | int i =>
    rw [scalarText, parseValue_number floats (numberToken_intRepr i) hrest, readInt_intRepr]
    rfl
  | float f =>
    rw [scalarText, parseValue_number floats (PyFloat.numberToken_repr f) hrest, String.ofList_toList, floats.read_repr]
    rfl
  | str s =>
    simp only [scalarText, quote, List.cons_append, List.append_assoc, List.nil_append]
    rw [parseValue, if_pos rfl, scanString_quote]
    rfl

/-- Setting fresh keys adds them in order. -/
theorem foldl_setItem {items : List (String × Value)} (others : List (String × Value))
    (h : ((others ++ items).map Prod.fst).Nodup) : items.foldl setItem others = others ++ items := by
  induction items generalizing others with
  | nil => simp
  | cons item items ih =>
    have hfresh : (others.any fun other => other.1 == item.1) = false := by
      rw [List.any_eq_false]
      intro other hother heq
      rw [List.map_append, List.map_cons] at h
      exact (List.nodup_append.mp h).2.2 other.1 (List.mem_map_of_mem hother) item.1 List.mem_cons_self (eq_of_beq heq)
    rw [List.foldl_cons, setItem, hfresh, if_neg Bool.false_ne_true, ih, List.append_assoc]
    · rfl
    · rwa [List.append_assoc]

theorem dictOf_eq {items : List (String × Value)} (h : (items.map Prod.fst).Nodup) : dictOf items = .dict items := by
  rw [dictOf, foldl_setItem [] (by simpa using h), List.nil_append]

end

section

variable (floats : FloatReader)

mutual

/-- The text of a JSON value is read as the value. -/
theorem parseValue_text? (value : Value) (hjson : value.IsJson) {text : List Char} (htext : text? value = some text)
    {fuel : Nat} (hfuel : text.length ≤ fuel) {rest : List Char} (hrest : Stops rest) :
    parseValue floats fuel (text ++ rest) = some (value, rest) := by
  match fuel, value, hjson with
  | 0, value, _ =>
    obtain ⟨c, tail, hstart, -⟩ := startsValue_text? htext
    simp [hstart] at hfuel
  | fuel + 1, .scalar s, _ =>
    rw [text?, Option.some.injEq] at htext
    subst htext
    exact parseValue_scalar floats s hrest fuel
  | fuel + 1, .list [], _ =>
    rw [text?, Option.some.injEq] at htext
    subst htext
    simp [parseValue, quoteMark, skipSpace, isSpace]
  | fuel + 1, .list (x :: xs), hjson =>
    rw [Value.IsJson, Value.IsJsonList] at hjson
    simp only [text?, Option.bind_eq_bind, Option.bind_eq_some_iff, Option.pure_def, Option.some.injEq] at htext
    obtain ⟨t, ht, ts, hts, rfl⟩ := htext
    have hlength : (t ++ ts).length < fuel := by
      simp only [List.length_cons, List.length_append, List.length_nil] at hfuel ⊢
      omega
    have helems := parseElems_text? x xs hjson.1 hjson.2 ht hts hlength rest
    obtain ⟨d, tail', rfl, hspace, hbracket, -⟩ := startsValue_text? ht
    simp only [List.cons_append, List.append_assoc, List.nil_append] at helems ⊢
    rw [parseValue, if_neg (by decide), if_pos rfl, skipSpace, List.dropWhile_cons, hspace]
    simp only [Bool.false_eq_true, if_false]
    split
    · next heq => exact absurd (List.cons.inj heq).1 hbracket
    · rw [helems]
      rfl
  | fuel + 1, .dict [], _ =>
    rw [text?, Option.some.injEq] at htext
    subst htext
    simp [parseValue, quoteMark, skipSpace, isSpace]
  | fuel + 1, .dict ((key, x) :: items), hjson =>
    rw [Value.IsJson, Value.IsJsonItems] at hjson
    simp only [text?, Option.bind_eq_bind, Option.bind_eq_some_iff, Option.pure_def, Option.some.injEq] at htext
    obtain ⟨t, ht, ts, hts, rfl⟩ := htext
    have hlength : (t ++ ts).length < fuel := by
      simp only [List.length_cons, List.length_append, List.length_nil] at hfuel ⊢
      omega
    have hitems := parseItems_text? key x items hjson.2.1 hjson.2.2 ht hts hlength rest
    simp only [quote, List.cons_append, List.append_assoc, List.nil_append] at hitems ⊢
    rw [parseValue, if_neg (by decide), if_neg (by decide), if_pos rfl, skipSpace, List.dropWhile_cons]
    simp only [show isSpace quoteMark = false by decide, Bool.false_eq_true, if_false]
    split
    · next heq => exact absurd (List.cons.inj heq).1 (by decide)
    · rw [hitems, Option.map_some, dictOf_eq hjson.1]

/-- The elements of an array are read up to its bracket. -/
theorem parseElems_text? (x : Value) (xs : List Value) (hx : x.IsJson) (hxs : Value.IsJsonList xs)
    {t ts : List Char} (ht : text? x = some t) (hts : elemsText? xs = some ts) {fuel : Nat}
    (hfuel : (t ++ ts).length < fuel) (rest : List Char) :
    parseElems floats fuel (t ++ (ts ++ ']' :: rest)) = some (x :: xs, rest) := by
  rw [List.length_append] at hfuel
  match fuel, xs, hxs with
  | fuel + 1, [], _ =>
    rw [elemsText?, Option.some.injEq] at hts
    subst hts
    have hvalue := parseValue_text? x hx ht (show t.length ≤ fuel by omega) (stops_cons (.inr (.inl rfl)) rest)
    rw [List.nil_append, parseElems, hvalue]
    simp [skipSpace, isSpace]
  | fuel + 1, y :: ys, hxs =>
    rw [Value.IsJsonList] at hxs
    simp only [elemsText?, Option.bind_eq_bind, Option.bind_eq_some_iff, Option.pure_def, Option.some.injEq] at hts
    obtain ⟨u, hu, us, hus, rfl⟩ := hts
    simp only [List.length_cons, List.length_append] at hfuel
    have hvalue := parseValue_text? x hx ht (show t.length ≤ fuel by omega)
      (stops_cons (.inl rfl) (' ' :: (u ++ (us ++ ']' :: rest))))
    have htail := parseElems_text? y ys hxs.1 hxs.2 hu hus (show (u ++ us).length < fuel by
      rw [List.length_append]
      omega) rest
    have hskip := (startsValue_text? hu).skipSpace (us ++ ']' :: rest)
    simp only [List.cons_append, List.append_assoc]
    rw [parseElems, hvalue]
    simp only [Option.bind_eq_bind, Option.bind_some]
    rw [skipSpace, List.dropWhile_cons]
    simp only [show isSpace ',' = false by decide, Bool.false_eq_true, if_false, hskip, htail, Option.bind_some]
    rfl

/-- The members of an object are read up to its brace. -/
theorem parseItems_text? (key : String) (x : Value) (items : List (String × Value)) (hx : x.IsJson)
    (hitems : Value.IsJsonItems items) {t ts : List Char} (ht : text? x = some t) (hts : itemsText? items = some ts)
    {fuel : Nat} (hfuel : (t ++ ts).length < fuel) (rest : List Char) :
    parseItems floats fuel (quote key ++ (':' :: ' ' :: (t ++ (ts ++ '\x7d' :: rest)))) =
      some ((key, x) :: items, rest) := by
  rw [List.length_append] at hfuel
  simp only [quote, List.cons_append, List.append_assoc, List.nil_append]
  match fuel, items, hitems with
  | fuel + 1, [], _ =>
    rw [parseItems, if_pos rfl, scanString_quote]
    simp only [Option.bind_eq_bind, Option.bind_some]
    rw [skipSpace, List.dropWhile_cons]
    simp only [show isSpace ':' = false by decide, Bool.false_eq_true, if_false, (startsValue_text? ht).skipSpace]
    rw [itemsText?, Option.some.injEq] at hts
    subst hts
    have hvalue := parseValue_text? x hx ht (show t.length ≤ fuel by omega) (stops_cons (.inr (.inr rfl)) rest)
    rw [List.nil_append, hvalue]
    simp [skipSpace, isSpace]
  | fuel + 1, (other, y) :: items, hitems =>
    rw [parseItems, if_pos rfl, scanString_quote]
    simp only [Option.bind_eq_bind, Option.bind_some]
    rw [skipSpace, List.dropWhile_cons]
    simp only [show isSpace ':' = false by decide, Bool.false_eq_true, if_false, (startsValue_text? ht).skipSpace]
    rw [Value.IsJsonItems] at hitems
    simp only [itemsText?, Option.bind_eq_bind, Option.bind_eq_some_iff, Option.pure_def, Option.some.injEq] at hts
    obtain ⟨u, hu, us, hus, rfl⟩ := hts
    simp only [List.length_cons, List.length_append] at hfuel
    have hvalue := parseValue_text? x hx ht (show t.length ≤ fuel by omega)
      (stops_cons (.inl rfl) (' ' :: (quote other ++ (':' :: ' ' :: (u ++ (us ++ '\x7d' :: rest))))))
    have htail := parseItems_text? other y items hitems.1 hitems.2 hu hus (show (u ++ us).length < fuel by
      rw [List.length_append]
      omega) rest
    have hskip : skipSpace (' ' :: (quote other ++ (':' :: ' ' :: (u ++ (us ++ '\x7d' :: rest))))) =
        quote other ++ (':' :: ' ' :: (u ++ (us ++ '\x7d' :: rest))) :=
      StartsValue.skipSpace ⟨quoteMark, _, rfl, by decide⟩ _
    simp only [List.cons_append, List.append_assoc, List.nil_append]
    rw [hvalue]
    simp only [Option.bind_some]
    rw [skipSpace, List.dropWhile_cons]
    simp only [show isSpace ',' = false by decide, Bool.false_eq_true, if_false, hskip, htail, Option.bind_some]
    rfl

end

/-- A text that was written is read back. -/
theorem loads_text? {value : Value} (hjson : value.IsJson) {text : List Char} (htext : text? value = some text) :
    loads floats (String.ofList text) = some value := by
  have hvalue := parseValue_text? floats value hjson htext (show text.length ≤ text.length + 1 by omega) stops_nil
  obtain ⟨c, tail, rfl, hspace, -⟩ := startsValue_text? htext
  rw [List.append_nil] at hvalue
  rw [loads, String.toList_ofList, String.length_ofList, skipSpace, List.dropWhile_cons, hspace]
  simp only [Bool.false_eq_true, if_false, hvalue, Option.bind_eq_bind, Option.bind_some]
  rfl

end

/-! ## Sorting keys -/

theorem sortKeysItems_eq_map (items : List (String × Value)) :
    sortKeysItems items = items.map (Prod.map id sortKeys) := by
  induction items with
  | nil => rfl
  | cons item items ih => rw [sortKeysItems, ih, List.map_cons]; rfl

mutual

/-- Sorted keys stay as they are. -/
theorem sortKeys_idem (value : Value) : sortKeys (sortKeys value) = sortKeys value := by
  match value with
  | .scalar s => rfl
  | .list xs => rw [sortKeys, sortKeys, sortKeysElems_idem xs]
  | .tuple xs => rw [sortKeys, sortKeys, sortKeysElems_idem xs]
  | .dict items =>
    have hmap : sortKeysItems ((sortKeysItems items).insertionSort byKey) =
        (sortKeysItems (sortKeysItems items)).insertionSort byKey := by
      rw [sortKeysItems_eq_map, sortKeysItems_eq_map (sortKeysItems items)]
      exact List.map_insertionSort byKey byKey (Prod.map id sortKeys) _ fun _ _ _ _ => Iff.rfl
    have hsorted := (List.pairwise_insertionSort byKey (sortKeysItems items)).insertionSort_eq
    rw [sortKeys, sortKeys, hmap, sortKeysItems_idem items, hsorted]
  | .mixedDict items key => rfl
  | .other typeName => rfl

theorem sortKeysElems_idem (xs : List Value) : sortKeysElems (sortKeysElems xs) = sortKeysElems xs := by
  match xs with
  | [] => rfl
  | x :: xs => rw [sortKeysElems, sortKeysElems, sortKeys_idem x, sortKeysElems_idem xs]

theorem sortKeysItems_idem (items : List (String × Value)) :
    sortKeysItems (sortKeysItems items) = sortKeysItems items := by
  match items with
  | [] => rfl
  | (key, x) :: items => rw [sortKeysItems, sortKeysItems, sortKeys_idem x, sortKeysItems_idem items]

end

/-- Items are sorted as they are, with their keys. -/
theorem map_fst_sortKeysItems (items : List (String × Value)) :
    (sortKeysItems items).map Prod.fst = items.map Prod.fst := by
  induction items with
  | nil => rfl
  | cons item items ih => simp [sortKeysItems, ih]

theorem isJsonItems_iff (items : List (String × Value)) :
    Value.IsJsonItems items ↔ ∀ item ∈ items, item.2.IsJson := by
  induction items with
  | nil => simp [Value.IsJsonItems]
  | cons item items ih => simp [Value.IsJsonItems, ih]

/-- Where each key is there once, the order of items does not matter to a
lookup. -/
theorem lookup_perm {items others : List (String × Value)} (h : items.Perm others)
    (hnodup : (items.map Prod.fst).Nodup) (key : String) : items.lookup key = others.lookup key := by
  induction h with
  | nil => rfl
  | cons item _ ih =>
    rw [List.map_cons, List.nodup_cons] at hnodup
    rw [List.lookup_cons, List.lookup_cons, ih hnodup.2]
  | swap item other items =>
    obtain ⟨k, x⟩ := item
    obtain ⟨l, y⟩ := other
    have hne : k ≠ l := by
      rintro rfl
      simp at hnodup
    rw [List.lookup_cons, List.lookup_cons, List.lookup_cons, List.lookup_cons]
    cases hitem : key == k with
    | false => rfl
    | true =>
      have hother : (key == l) = false := by
        rw [beq_eq_false_iff_ne, eq_of_beq hitem]
        exact hne
      rw [hother]
  | trans hfirst _ ih ih' =>
    rw [ih hnodup, ih' ((hfirst.map Prod.fst).nodup_iff.mp hnodup)]

/-- An item of a sorted dict. -/
theorem get?_sortKeys {items : List (String × Value)} (h : (items.map Prod.fst).Nodup) (key : String) :
    (sortKeys (.dict items)).get? key = (items.lookup key).map sortKeys := by
  have hlookup : (sortKeysItems items).lookup key = (items.lookup key).map sortKeys := by
    clear h
    induction items with
    | nil => rfl
    | cons item items ih =>
      rw [sortKeysItems, List.lookup_cons, List.lookup_cons, ih]
      cases key == item.1 <;> rfl
  rw [sortKeys, Value.get?_dict, ← hlookup]
  refine (lookup_perm (List.perm_insertionSort byKey _).symm ?_ key).symm
  rwa [map_fst_sortKeysItems]

mutual

/-- Sorted keys are still each there once. -/
theorem isJson_sortKeys (value : Value) (h : value.IsJson) : (sortKeys value).IsJson := by
  match value, h with
  | .scalar s, _ => exact trivial
  | .list xs, h => exact isJsonList_sortKeys xs h
  | .dict items, h =>
    rw [Value.IsJson] at h
    rw [sortKeys, Value.IsJson]
    have hperm := List.perm_insertionSort byKey (sortKeysItems items)
    constructor
    · rw [(hperm.map Prod.fst).nodup_iff, map_fst_sortKeysItems]
      exact h.1
    · rw [isJsonItems_iff]
      intro item hitem
      exact (isJsonItems_iff _).mp (isJsonItems_sortKeys items h.2) item (hperm.mem_iff.mp hitem)

theorem isJsonList_sortKeys (xs : List Value) (h : Value.IsJsonList xs) : Value.IsJsonList (sortKeysElems xs) := by
  match xs, h with
  | [], _ => exact trivial
  | x :: xs, h =>
    rw [Value.IsJsonList] at h
    rw [sortKeysElems, Value.IsJsonList]
    exact ⟨isJson_sortKeys x h.1, isJsonList_sortKeys xs h.2⟩

theorem isJsonItems_sortKeys (items : List (String × Value)) (h : Value.IsJsonItems items) :
    Value.IsJsonItems (sortKeysItems items) := by
  match items, h with
  | [], _ => exact trivial
  | (key, x) :: items, h =>
    rw [Value.IsJsonItems] at h
    rw [sortKeysItems, Value.IsJsonItems]
    exact ⟨isJson_sortKeys x h.1, isJsonItems_sortKeys items h.2⟩

end

mutual

/-- A JSON value has a text. -/
theorem text?_isSome (value : Value) (h : value.IsJson) : (text? value).isSome = true := by
  match value, h with
  | .scalar s, _ => rfl
  | .list [], _ => rfl
  | .list (x :: xs), h =>
    rw [Value.IsJson, Value.IsJsonList] at h
    obtain ⟨t, ht⟩ := Option.isSome_iff_exists.mp (text?_isSome x h.1)
    obtain ⟨ts, hts⟩ := Option.isSome_iff_exists.mp (elemsText?_isSome xs h.2)
    simp [text?, ht, hts]
  | .dict [], _ => rfl
  | .dict ((key, x) :: items), h =>
    rw [Value.IsJson, Value.IsJsonItems] at h
    obtain ⟨t, ht⟩ := Option.isSome_iff_exists.mp (text?_isSome x h.2.1)
    obtain ⟨ts, hts⟩ := Option.isSome_iff_exists.mp (itemsText?_isSome items h.2.2)
    simp [text?, ht, hts]

theorem elemsText?_isSome (xs : List Value) (h : Value.IsJsonList xs) : (elemsText? xs).isSome = true := by
  match xs, h with
  | [], _ => rfl
  | x :: xs, h =>
    rw [Value.IsJsonList] at h
    obtain ⟨t, ht⟩ := Option.isSome_iff_exists.mp (text?_isSome x h.1)
    obtain ⟨ts, hts⟩ := Option.isSome_iff_exists.mp (elemsText?_isSome xs h.2)
    simp [elemsText?, ht, hts]

theorem itemsText?_isSome (items : List (String × Value)) (h : Value.IsJsonItems items) :
    (itemsText? items).isSome = true := by
  match items, h with
  | [], _ => rfl
  | (key, x) :: items, h =>
    rw [Value.IsJsonItems] at h
    obtain ⟨t, ht⟩ := Option.isSome_iff_exists.mp (text?_isSome x h.1)
    obtain ⟨ts, hts⟩ := Option.isSome_iff_exists.mp (itemsText?_isSome items h.2)
    simp [itemsText?, ht, hts]

end

/-- A JSON value is read back with its keys sorted. -/
theorem loads_dumps (floats : FloatReader) {value : Value} (h : value.IsJson) :
    ∃ text, dumps value = some text ∧ loads floats text = some (sortKeys value) := by
  have hsorted := isJson_sortKeys value h
  obtain ⟨text, htext⟩ := Option.isSome_iff_exists.mp (text?_isSome _ hsorted)
  exact ⟨String.ofList text, by rw [dumps, htext]; rfl, loads_text? floats hsorted htext⟩

end Py.Json
