import Mathlib.Data.List.Basic

/-!
# MinionAgent.Library.JsonPointer

JSON pointers (RFC 6901) as the fragments of references: `#`, and then the tokens,
a slash in front of each, with tilde and slash escaped.

* `unescape?_escape` — a token comes back from its escaped form;
* `tokens?_text` — the tokens come back from the text of a pointer.
-/

/-- The symbols of pointers in an alphabet. -/
structure JsonPointer (α : Type) where
  hash : α
  slash : α
  tilde : α
  zero : α
  one : α
  slash_ne_tilde : slash ≠ tilde
  slash_ne_zero : slash ≠ zero
  slash_ne_one : slash ≠ one
  zero_ne_one : zero ≠ one

namespace JsonPointer

variable {α : Type} [DecidableEq α] (p : JsonPointer α)

/-! ## Tokens -/

/-- A token, with tilde and slash escaped, the tilde first. -/
def escape (token : List α) : List α :=
  (token.flatMap fun c => if c = p.tilde then [p.tilde, p.zero] else [c]).flatMap fun c =>
    if c = p.slash then [p.tilde, p.one] else [c]

/-- A token from its escaped form, which has a tilde in front of `0` or `1` only. -/
def unescape? : List α → Option (List α)
  | [] => some []
  | [c] => if c = p.tilde then none else some [c]
  | c :: d :: rest =>
    if c = p.tilde then
      if d = p.zero then (unescape? rest).map (p.tilde :: ·)
      else if d = p.one then (unescape? rest).map (p.slash :: ·)
      else none
    else (unescape? (d :: rest)).map (c :: ·)

/-- A token from a form in which any other tilde stands for itself. -/
def decode : List α → List α
  | [] => []
  | [c] => [c]
  | c :: d :: rest =>
    if c = p.tilde ∧ (d = p.zero ∨ d = p.one) then (if d = p.zero then p.tilde else p.slash) :: decode rest
    else c :: decode (d :: rest)

theorem escape_cons (c : α) (token : List α) :
    p.escape (c :: token) =
      (if c = p.tilde then [p.tilde, p.zero] else if c = p.slash then [p.tilde, p.one] else [c]) ++ p.escape token := by
  have hne := p.slash_ne_tilde
  have hne' := p.slash_ne_zero
  unfold escape
  rw [List.flatMap_cons, List.flatMap_append]
  split_ifs with htilde hslash
  · simp [Ne.symm hne, Ne.symm hne']
  · simp [hslash]
  · simp [hslash]

theorem unescape?_cons {c : α} (h : c ≠ p.tilde) (rest : List α) :
    p.unescape? (c :: rest) = (p.unescape? rest).map (c :: ·) := by
  cases rest with
  | nil => simp [unescape?, h]
  | cons d rest => rw [unescape?, if_neg h]

/-- A token comes back from its escaped form. -/
@[simp] theorem unescape?_escape (token : List α) : p.unescape? (p.escape token) = some token := by
  induction token with
  | nil => rfl
  | cons c token ih =>
    rw [escape_cons]
    split_ifs with htilde hslash
    · simp [unescape?, ih, htilde]
    · simp [unescape?, ih, hslash, Ne.symm p.zero_ne_one]
    · rw [List.singleton_append, unescape?_cons p htilde, ih]
      rfl

/-- An escaped token has no slash. -/
theorem slash_notMem_escape (token : List α) : p.slash ∉ p.escape token := by
  induction token with
  | nil => exact List.not_mem_nil
  | cons c token ih =>
    rw [escape_cons, List.mem_append]
    have htilde := p.slash_ne_tilde
    have hzero := p.slash_ne_zero
    have hone := p.slash_ne_one
    split_ifs with h h' <;> simp_all [eq_comm]

theorem decode_cons {c : α} (h : c ≠ p.tilde) (rest : List α) : p.decode (c :: rest) = c :: p.decode rest := by
  cases rest with
  | nil => rfl
  | cons d rest => rw [decode, if_neg fun hc => h hc.1]

theorem decode_append {front : List α} (h : p.tilde ∉ front) (rest : List α) :
    p.decode (front ++ rest) = front ++ p.decode rest := by
  induction front with
  | nil => rfl
  | cons c front ih =>
    rw [List.mem_cons, not_or] at h
    rw [List.cons_append, decode_cons p (Ne.symm h.1), ih h.2]
    rfl

/-- Where all tildes are escapes, both readings are one. -/
theorem decode_of_unescape? {text token : List α} (h : p.unescape? text = some token) : p.decode text = token := by
  fun_induction unescape? p text generalizing token with
  | case1 => simpa [decode] using h
  | case2 => cases h
  | case3 c hc => simpa [decode] using h
  | case4 rest ih =>
    obtain ⟨inner, hinner, rfl⟩ := Option.map_eq_some_iff.mp h
    simp [decode, ih hinner]
  | case5 rest hne ih =>
    obtain ⟨inner, hinner, rfl⟩ := Option.map_eq_some_iff.mp h
    simp [decode, ih hinner, hne]
  | case6 => cases h
  | case7 c d rest hc ih =>
    obtain ⟨inner, hinner, rfl⟩ := Option.map_eq_some_iff.mp h
    simp [decode, ih hinner, hc]

/-! ## Pointers -/

/-- The raw tokens of a pointer that is not empty. -/
def rawTokens (text : List α) : List (List α) := (text.drop 2).splitOn p.slash

/-- A reference within the document that is not to all of it. -/
def isPointer (text : List α) : Bool := [p.hash, p.slash].isPrefixOf text

/-- The tokens of a pointer. -/
def tokens? (text : List α) : Option (List (List α)) :=
  if p.isPointer text then (p.rawTokens text).mapM p.unescape? else none

/-- The text of a pointer. -/
def text (tokens : List (List α)) : List α := p.hash :: tokens.flatMap fun token => p.slash :: p.escape token

theorem flatMap_slash {tokens : List (List α)} (h : tokens ≠ []) :
    (tokens.flatMap fun token => p.slash :: p.escape token) =
      p.slash :: List.intercalate [p.slash] (tokens.map p.escape) := by
  induction tokens with
  | nil => exact absurd rfl h
  | cons token tokens ih =>
    cases tokens with
    | nil => simp
    | cons next tokens =>
      rw [List.flatMap_cons, ih (List.cons_ne_nil _ _), List.map_cons, List.map_cons, List.map_cons,
        List.intercalate_cons_cons]
      simp

theorem mapM_unescape?_escape (tokens : List (List α)) : (tokens.map p.escape).mapM p.unescape? = some tokens := by
  induction tokens with
  | nil => rfl
  | cons token tokens ih => simp [ih]

/-- The tokens come back from the text of a pointer. -/
theorem tokens?_text {tokens : List (List α)} (h : tokens ≠ []) : p.tokens? (p.text tokens) = some tokens := by
  have htext : p.text tokens = p.hash :: p.slash :: List.intercalate [p.slash] (tokens.map p.escape) := by
    rw [text, flatMap_slash p h]
  have hsplit : (List.intercalate [p.slash] (tokens.map p.escape)).splitOn p.slash = tokens.map p.escape :=
    List.splitOn_intercalate p.slash (by simpa using fun token _ => p.slash_notMem_escape token) (by simpa using h)
  rw [tokens?, htext, if_pos (by simp [isPointer]), rawTokens, List.drop_succ_cons, List.drop_succ_cons, List.drop_zero,
    hsplit, mapM_unescape?_escape]

theorem rawTokens_ne_nil (text : List α) : p.rawTokens text ≠ [] := List.splitOn_ne_nil _ _

theorem mapM_decode {raw tokens : List (List α)} (h : raw.mapM p.unescape? = some tokens) :
    raw.map p.decode = tokens := by
  induction raw generalizing tokens with
  | nil => simpa using h
  | cons first raw ih =>
    rw [List.mapM_cons] at h
    cases hfirst : p.unescape? first with
    | none => simp [hfirst] at h
    | some token =>
      cases hrest : raw.mapM p.unescape? with
      | none => simp [hfirst, hrest] at h
      | some rest =>
        obtain rfl : token :: rest = tokens := by simpa [hfirst, hrest] using h
        rw [List.map_cons, ih hrest, decode_of_unescape? p hfirst]

/-- Both readings of a pointer are one where it has tokens. -/
theorem map_decode_rawTokens {text : List α} {tokens : List (List α)} (h : p.tokens? text = some tokens) :
    (p.rawTokens text).map p.decode = tokens := by
  unfold tokens? at h
  split at h
  · exact mapM_decode p h
  · cases h

end JsonPointer
