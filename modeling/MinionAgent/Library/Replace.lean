import Mathlib.Data.List.Infix

/-!
# MinionAgent.Library.Replace

`text.replace(old, new)` for a non-empty `old`: the occurrences that are
taken out are the leftmost ones that do not overlap.  The elements of a text
may carry more than the character that is compared, which `key` reads, so that
the same function also says where each element of the result comes from.

* `replace_map` — the replacement does not look at what else an element carries;
* `covered_foldl_replace` — after several replacements, every occurrence of a
  replaced text holds an element that was put in;
* `foldl_replace_eq_maskAll` — replacing several texts one after another puts in
  the masks of all of them at once, when no two of them take out the same
  element and none takes out an element that was put in for another one.
-/

namespace Replace

variable {α β κ : Type}

/-- The text `old` stands at the front. -/
def Here (key : α → κ) (old : List κ) (text : List α) : Prop := old <+: text.map key

theorem here_map (f : α → β) (key : β → κ) (old : List κ) (text : List α) :
    Here key old (text.map f) ↔ Here (key ∘ f) old text := by
  simp [Here]

variable [DecidableEq κ]

instance (key : α → κ) (old : List κ) (text : List α) : Decidable (Here key old text) :=
  inferInstanceAs (Decidable (old <+: text.map key))

/-- The replacement, `skip` elements of an occurrence being still left to take out. -/
def replaceFrom (key : α → κ) (old : List κ) (new : List α) : Nat → List α → List α
  | _, [] => []
  | skip + 1, _ :: text => replaceFrom key old new skip text
  | 0, c :: text =>
    if Here key old (c :: text) then new ++ replaceFrom key old new (old.length - 1) text
    else c :: replaceFrom key old new 0 text

/-- `text.replace(old, new)`. -/
def replace (key : α → κ) (old : List κ) (new text : List α) : List α := replaceFrom key old new 0 text

/-- For each element of a text, whether the replacement takes it out. -/
def takenFrom (key : α → κ) (old : List κ) : Nat → List α → List Bool
  | _, [] => []
  | skip + 1, _ :: text => true :: takenFrom key old skip text
  | 0, c :: text =>
    if Here key old (c :: text) then true :: takenFrom key old (old.length - 1) text
    else false :: takenFrom key old 0 text

/-- The replacement of `old` takes out the element at `i`. -/
def Takes (key : α → κ) (old : List κ) (text : List α) (i : Nat) : Prop :=
  (takenFrom key old 0 text)[i]? = some true

instance (key : α → κ) (old : List κ) (text : List α) (i : Nat) : Decidable (Takes key old text i) :=
  inferInstanceAs (Decidable (_ = _))

section Step

variable {key : α → κ} {old : List κ} {new : List α} {c : α} {text : List α}

@[simp] theorem replaceFrom_nil (skip : Nat) : replaceFrom key old new skip [] = [] := by
  cases skip <;> rfl

@[simp] theorem replaceFrom_skip (skip : Nat) :
    replaceFrom key old new (skip + 1) (c :: text) = replaceFrom key old new skip text := rfl

theorem replaceFrom_here (h : Here key old (c :: text)) :
    replaceFrom key old new 0 (c :: text) = new ++ replaceFrom key old new (old.length - 1) text := by
  simp [replaceFrom, h]

theorem replaceFrom_not_here (h : ¬ Here key old (c :: text)) :
    replaceFrom key old new 0 (c :: text) = c :: replaceFrom key old new 0 text := by
  simp [replaceFrom, h]

@[simp] theorem takenFrom_nil (skip : Nat) : takenFrom key old skip [] = [] := by
  cases skip <;> rfl

@[simp] theorem takenFrom_skip (skip : Nat) :
    takenFrom key old (skip + 1) (c :: text) = true :: takenFrom key old skip text := rfl

theorem takenFrom_here (h : Here key old (c :: text)) :
    takenFrom key old 0 (c :: text) = true :: takenFrom key old (old.length - 1) text := by
  simp [takenFrom, h]

theorem takenFrom_not_here (h : ¬ Here key old (c :: text)) :
    takenFrom key old 0 (c :: text) = false :: takenFrom key old 0 text := by
  simp [takenFrom, h]

end Step

/-! ## What an element carries besides its character -/

theorem replaceFrom_map (f : α → β) (key : β → κ) (old : List κ) (new : List α) (text : List α) (skip : Nat) :
    (replaceFrom (key ∘ f) old new skip text).map f = replaceFrom key old (new.map f) skip (text.map f) := by
  induction text generalizing skip with
  | nil => simp
  | cons c text ih =>
    cases skip with
    | succ skip => simpa using ih skip
    | zero =>
      have hiff : Here key old (f c :: text.map f) ↔ Here (key ∘ f) old (c :: text) := here_map f key old (c :: text)
      by_cases h : Here (key ∘ f) old (c :: text)
      · rw [List.map_cons, replaceFrom_here h, replaceFrom_here (hiff.mpr h), List.map_append, ih]
      · rw [List.map_cons, replaceFrom_not_here h, replaceFrom_not_here (mt hiff.mp h), List.map_cons, ih]

theorem replace_map (f : α → β) (key : β → κ) (old : List κ) (new text : List α) :
    (replace (key ∘ f) old new text).map f = replace key old (new.map f) (text.map f) :=
  replaceFrom_map f key old new text 0

/-- One element, wherever it is. -/
theorem replace_singleton [DecidableEq α] (a : α) (new text : List α) :
    replace id [a] new text = text.flatMap fun c => if c = a then new else [c] := by
  have hzero (text : List α) : replaceFrom id [a] new 0 text = replace id [a] new text := rfl
  induction text with
  | nil => rfl
  | cons c text ih =>
    have hiff : Here id [a] (c :: text) ↔ c = a := by simp [Here, eq_comm]
    rw [List.flatMap_cons, ← ih]
    by_cases hc : c = a
    · rw [replace, replaceFrom_here (hiff.mpr hc), if_pos hc]
      rfl
    · rw [replace, replaceFrom_not_here (mt hiff.mp hc), if_neg hc]
      rfl

/-- A text replaced by itself stays. -/
theorem replaceFrom_self {old : List κ} (hold : old ≠ []) (text : List κ) (skip : Nat) :
    replaceFrom id old old skip text = text.drop skip := by
  induction text generalizing skip with
  | nil => simp
  | cons c text ih =>
    cases skip with
    | succ skip => simpa using ih skip
    | zero =>
      by_cases h : Here id old (c :: text)
      · rw [replaceFrom_here h, ih]
        have hpre : old <+: c :: text := by simpa [Here] using h
        obtain ⟨rest, hrest⟩ := hpre
        obtain ⟨d, front, rfl⟩ := List.exists_cons_of_ne_nil hold
        obtain ⟨rfl, rfl⟩ : d = c ∧ front ++ rest = text := by simpa using hrest
        simp
      · rw [replaceFrom_not_here h, ih]
        simp

/-! ## Occurrences in the result -/

section Marked

variable {key : α → κ} {old : List κ} {new : List α} {put : α → Prop}

/-- A front of the result without an element that was put in is a front of the text. -/
theorem prefix_of_prefix_replaceFrom (hne : new ≠ []) (hnew : ∀ c ∈ new, put c) {text w : List α}
    (hw : ∀ c ∈ w, ¬ put c) (h : w <+: replaceFrom key old new 0 text) : w <+: text := by
  induction text generalizing w with
  | nil => simpa using h
  | cons c text ih =>
    cases w with
    | nil => exact List.nil_prefix
    | cons d w =>
      by_cases hhere : Here key old (c :: text)
      · rw [replaceFrom_here hhere] at h
        obtain ⟨e, new', rfl⟩ := List.exists_cons_of_ne_nil hne
        have hde : d = e := (List.cons_prefix_cons.mp h).1
        exact absurd (hnew e List.mem_cons_self) (hde ▸ hw d List.mem_cons_self)
      · rw [replaceFrom_not_here hhere] at h
        obtain ⟨rfl, htail⟩ := List.cons_prefix_cons.mp h
        exact List.cons_prefix_cons.mpr ⟨rfl, ih (fun e he => hw e (List.mem_cons_of_mem _ he)) htail⟩

/-- An infix of a text behind elements that it does not hold lies in the rest. -/
theorem infix_of_infix_append {front text w : List α} (hfront : ∀ c ∈ front, put c) (hw : ∀ c ∈ w, ¬ put c)
    (h : w <:+: front ++ text) : w <:+: text := by
  induction front with
  | nil => simpa using h
  | cons d front ih =>
    rcases List.infix_cons_iff.mp h with hpre | hin
    · cases w with
      | nil => exact List.nil_infix
      | cons e w =>
        have hed : e = d := (List.cons_prefix_cons.mp hpre).1
        exact absurd (hfront d List.mem_cons_self) (hed ▸ hw e List.mem_cons_self)
    · exact ih (fun e he => hfront e (List.mem_cons_of_mem _ he)) hin

/-- A part of the result without an element that was put in is a part of the
text, and it is not the replaced one. -/
theorem infix_of_infix_replaceFrom (hold : old ≠ []) (hne : new ≠ []) (hnew : ∀ c ∈ new, put c) {text w : List α}
    (hw : ∀ c ∈ w, ¬ put c) {skip : Nat} (h : w <:+: replaceFrom key old new skip text) :
    w <:+: text ∧ w.map key ≠ old := by
  induction text generalizing skip with
  | nil =>
    have hnil : w = [] := by simpa using h
    subst hnil
    exact ⟨List.nil_infix, fun hmap => hold hmap.symm⟩
  | cons c text ih =>
    cases skip with
    | succ skip =>
      obtain ⟨hin, hmap⟩ := ih h
      exact ⟨List.infix_cons hin, hmap⟩
    | zero =>
      by_cases hhere : Here key old (c :: text)
      · rw [replaceFrom_here hhere] at h
        obtain ⟨hin, hmap⟩ := ih (infix_of_infix_append hnew hw h)
        exact ⟨List.infix_cons hin, hmap⟩
      · have hpreOf : w <+: replaceFrom key old new 0 (c :: text) → w <+: c :: text :=
          prefix_of_prefix_replaceFrom hne hnew hw
        rw [replaceFrom_not_here hhere] at h hpreOf
        rcases List.infix_cons_iff.mp h with hpre | hin
        · have hfront : w <+: c :: text := hpreOf hpre
          refine ⟨hfront.isInfix, fun hmap => hhere ?_⟩
          exact hmap ▸ hfront.map key
        · obtain ⟨hin, hmap⟩ := ih hin
          exact ⟨List.infix_cons hin, hmap⟩

/-- Every occurrence of `old` holds an element that was put in. -/
def Covered (key : α → κ) (put : α → Prop) (old : List κ) (text : List α) : Prop :=
  ∀ w, w <:+: text → w.map key = old → ∃ c ∈ w, put c

/-- The replacement of a text covers its occurrences. -/
theorem covered_replace (hold : old ≠ []) (hne : new ≠ []) (hnew : ∀ c ∈ new, put c) (text : List α) :
    Covered key put old (replace key old new text) := by
  intro w hin hmap
  by_contra hnone
  push Not at hnone
  exact (infix_of_infix_replaceFrom hold hne hnew hnone hin).2 hmap

/-- A replacement keeps the occurrences of any other text covered. -/
theorem Covered.replace {old' : List κ} {text : List α} (h : Covered key put old' text) (hold : old ≠ [])
    (hne : new ≠ []) (hnew : ∀ c ∈ new, put c) : Covered key put old' (replace key old new text) := by
  intro w hin hmap
  by_contra hnone
  push Not at hnone
  obtain ⟨c, hc, hput⟩ := h w (infix_of_infix_replaceFrom hold hne hnew hnone hin).1 hmap
  exact hnone c hc hput

/-- After several replacements the occurrences of every replaced text are covered. -/
theorem covered_foldl_replace (hne : new ≠ []) (hnew : ∀ c ∈ new, put c) (olds : List (List κ))
    (holds : [] ∉ olds) (text : List α) :
    ∀ old ∈ olds, Covered key put old (olds.foldl (fun text old => replace key old new text) text) := by
  induction olds using List.reverseRecOn with
  | nil => simp
  | append_singleton olds last ih =>
    have hlast : last ≠ [] := by
      rintro rfl
      exact holds (by simp)
    intro old hmem
    rw [List.foldl_append]
    rcases List.mem_append.mp hmem with hin | hin
    · exact (ih (fun hnil => holds (List.mem_append_left _ hnil)) old hin).replace hlast hne hnew
    · obtain rfl : old = last := by simpa using hin
      exact covered_replace hlast hne hnew _

end Marked

/-! ## All masks at once -/

/-- How many elements of an occurrence at hand are left to take out, behind the first element of a text. -/
def leftAfter (key : α → κ) (left : List κ → Nat) (c : α) (text : List α) (old : List κ) : Nat :=
  match left old with
  | skip + 1 => skip
  | 0 => if Here key old (c :: text) then old.length - 1 else 0

/-- The text with the occurrences of all of `olds` masked at once, `left` elements of each being
still left to take out. -/
def maskFrom (key : α → κ) (olds : List (List κ)) (new : List α) : (List κ → Nat) → List α → List α
  | _, [] => []
  | left, c :: text =>
    if ∃ old ∈ olds, left old = 0 ∧ Here key old (c :: text) then
      new ++ maskFrom key olds new (leftAfter key left c text) text
    else if ∃ old ∈ olds, left old ≠ 0 then maskFrom key olds new (leftAfter key left c text) text
    else c :: maskFrom key olds new (leftAfter key left c text) text

/-- The text with the occurrences of all of `olds` masked at once. -/
def maskAll (key : α → κ) (olds : List (List κ)) (new text : List α) : List α :=
  maskFrom key olds new (fun _ => 0) text

section MaskAll

variable {key : α → κ} {olds : List (List κ)} {new : List α}

@[simp] theorem maskFrom_nil (left : List κ → Nat) : maskFrom key olds new left [] = [] := rfl

/-- An element that an occurrence takes out: what begins there is masked, and
the rest of an occurrence is left out. -/
theorem maskFrom_congr {others : List (List κ)} (hsame : ∀ old, old ∈ olds ↔ old ∈ others) (left : List κ → Nat)
    (text : List α) : maskFrom key olds new left text = maskFrom key others new left text := by
  induction text generalizing left with
  | nil => rfl
  | cons c text ih => simp only [maskFrom, hsame, ih]

/-- No text is masked without occurrences to mask. -/
theorem maskFrom_no_olds (left : List κ → Nat) (text : List α) : maskFrom key [] new left text = text := by
  induction text generalizing left with
  | nil => rfl
  | cons c text ih => simp [maskFrom, ih]

section At

variable {left : List κ → Nat} {c : α} {text : List α} {old : List κ}

/-- The element at the front is taken out as `old`, or it is not. -/
theorem takenFrom_cons (left : List κ → Nat) (c : α) (text : List α) (old : List κ) :
    takenFrom key old (left old) (c :: text) =
      decide (left old ≠ 0 ∨ Here key old (c :: text)) :: takenFrom key old (leftAfter key left c text old) text := by
  cases hleft : left old with
  | succ skip => simp [leftAfter, hleft]
  | zero =>
    by_cases hhere : Here key old (c :: text)
    · simp [takenFrom_here hhere, leftAfter, hleft, hhere]
    · simp [takenFrom_not_here hhere, leftAfter, hleft, hhere]

theorem leftAfter_of_not_taken (hleft : left old = 0) (hhere : ¬ Here key old (c :: text)) :
    leftAfter key left c text old = 0 := by
  simp [leftAfter, hleft, hhere]

end At

/-- What the masks keep: elements that none of `olds` takes out stay in front. -/
theorem take_prefix_maskFrom {left : List κ → Nat} {text : List α} {n : Nat}
    (hkept : ∀ old ∈ olds, ∀ i, i < n → (takenFrom key old (left old) text)[i]? ≠ some true) :
    text.take n <+: maskFrom key olds new left text := by
  induction n generalizing left text with
  | zero => simp
  | succ n ih =>
    cases text with
    | nil => simp
    | cons c text =>
      have hfree : ∀ old ∈ olds, left old = 0 ∧ ¬ Here key old (c :: text) := by
        intro old hold
        have hfirst := hkept old hold 0 (Nat.succ_pos n)
        rw [takenFrom_cons] at hfirst
        simpa using hfirst
      have hstart : ¬ ∃ old ∈ olds, left old = 0 ∧ Here key old (c :: text) := by
        rintro ⟨old, hold, -, hhere⟩
        exact (hfree old hold).2 hhere
      have hrest : ¬ ∃ old ∈ olds, left old ≠ 0 := by
        rintro ⟨old, hold, hleft⟩
        exact hleft (hfree old hold).1
      rw [maskFrom, if_neg hstart, if_neg hrest, List.take_succ_cons]
      refine List.cons_prefix_cons.mpr ⟨rfl, ih ?_⟩
      intro old hold i hi
      have hnext := hkept old hold (i + 1) (Nat.succ_lt_succ hi)
      rw [takenFrom_cons] at hnext
      simpa using hnext

/-- What the masks leave unmasked in front was in front of the text. -/
theorem prefix_of_prefix_maskFrom {put : α → Prop} (hne : new ≠ []) (hnew : ∀ c ∈ new, put c)
    {left : List κ → Nat} {text w : List α} (hleft : ∀ old ∈ olds, left old = 0) (hw : ∀ c ∈ w, ¬ put c)
    (h : w <+: maskFrom key olds new left text) : w <+: text := by
  induction text generalizing left w with
  | nil => simpa using h
  | cons c text ih =>
    cases w with
    | nil => exact List.nil_prefix
    | cons d w =>
      by_cases hstart : ∃ old ∈ olds, left old = 0 ∧ Here key old (c :: text)
      · rw [maskFrom, if_pos hstart] at h
        obtain ⟨e, new', rfl⟩ := List.exists_cons_of_ne_nil hne
        have hde : d = e := (List.cons_prefix_cons.mp h).1
        exact absurd (hnew e List.mem_cons_self) (hde ▸ hw d List.mem_cons_self)
      · have hrest : ¬ ∃ old ∈ olds, left old ≠ 0 := by
          rintro ⟨old, hold, hne⟩
          exact hne (hleft old hold)
        rw [maskFrom, if_neg hstart, if_neg hrest] at h
        obtain ⟨rfl, htail⟩ := List.cons_prefix_cons.mp h
        refine List.cons_prefix_cons.mpr ⟨rfl, ih ?_ (fun e he => hw e (List.mem_cons_of_mem _ he)) htail⟩
        intro old hold
        exact leftAfter_of_not_taken (hleft old hold) fun hhere => hstart ⟨old, hold, hleft old hold, hhere⟩

/-! ### One more text -/

/-- The elements that `old` takes out were not put in. -/
def SparesFrom (key : α → κ) (put : α → Prop) (old : List κ) (skip : Nat) (text : List α) : Prop :=
  ∀ p ∈ (takenFrom key old skip text).zip text, p.1 = true → ¬ put p.2

section OneMore

variable {put : α → Prop} {old : List κ}

theorem sparesFrom_cons {left : List κ → Nat} {c : α} {text : List α} :
    SparesFrom key put old (left old) (c :: text) ↔
      (left old ≠ 0 ∨ Here key old (c :: text) → ¬ put c) ∧
        SparesFrom key put old (leftAfter key left c text old) text := by
  rw [SparesFrom, takenFrom_cons, List.zip_cons_cons, List.forall_mem_cons]
  simp [SparesFrom]

/-- What is left to take out of an occurrence was not put in. -/
theorem SparesFrom.take {skip : Nat} {text : List α} (h : SparesFrom key put old skip text) :
    ∀ c ∈ text.take skip, ¬ put c := by
  induction text generalizing skip with
  | nil => simp
  | cons c text ih =>
    cases skip with
    | zero => simp
    | succ skip =>
      have hcons := (@sparesFrom_cons _ _ _ key put old (fun _ => skip + 1) c text).mp h
      rw [List.take_succ_cons, List.forall_mem_cons]
      exact ⟨hcons.1 (Or.inl (Nat.succ_ne_zero skip)), ih hcons.2⟩

/-- A mask in front stays when the elements that were put in are spared. -/
theorem replaceFrom_mask_append {front text : List α} (hfront : ∀ c ∈ front, put c)
    (h : SparesFrom key put old 0 (front ++ text)) :
    replaceFrom key old new 0 (front ++ text) = front ++ replaceFrom key old new 0 text ∧
      SparesFrom key put old 0 text := by
  induction front with
  | nil => exact ⟨rfl, h⟩
  | cons c front ih =>
    have hcons := (@sparesFrom_cons _ _ _ key put old (fun _ => 0) c (front ++ text)).mp h
    have hnot : ¬ Here key old (c :: (front ++ text)) :=
      fun hhere => hcons.1 (Or.inr hhere) (hfront c List.mem_cons_self)
    have hnext : SparesFrom key put old 0 (front ++ text) := by
      simpa [leftAfter, hnot] using hcons.2
    obtain ⟨heq, hspares⟩ := ih (fun d hd => hfront d (List.mem_cons_of_mem _ hd)) hnext
    refine ⟨?_, hspares⟩
    rw [List.cons_append, replaceFrom_not_here hnot, heq, List.cons_append]

/-- An occurrence at hand is taken out. -/
theorem takenFrom_left {skip : Nat} {text : List α} {i : Nat} (hi : i < skip) (hlen : i < text.length) :
    (takenFrom key old skip text)[i]? = some true := by
  induction text generalizing skip i with
  | nil => simp at hlen
  | cons c text ih =>
    obtain ⟨skip, rfl⟩ : ∃ n, skip = n + 1 := ⟨skip - 1, by omega⟩
    cases i with
    | zero => simp
    | succ i =>
      simpa using ih (Nat.lt_of_succ_lt_succ hi) (by simpa using hlen)

/-- An occurrence at the front is taken out. -/
theorem takenFrom_of_here {c : α} {text : List α} (hhere : Here key old (c :: text)) {i : Nat} (hi : i < old.length) :
    (takenFrom key old 0 (c :: text))[i]? = some true := by
  have hlen : old.length ≤ (c :: text).length := by
    simpa using hhere.length_le
  rw [takenFrom_here hhere]
  cases i with
  | zero => rfl
  | succ i =>
    rw [List.getElem?_cons_succ]
    exact takenFrom_left (by omega) (by simp at hlen; omega)

/-- Where nothing else is being taken out, `old` stands at the front of the masked text when it
stands at the front of the text itself. -/
theorem here_maskFrom_iff (hne : new ≠ []) (hnew : ∀ c ∈ new, put c) {left : List κ → Nat} {c : α} {text : List α}
    (hzeros : ∀ other ∈ olds, left other = 0) (hleft : left old = 0)
    (hapart : ∀ other ∈ olds, ∀ i : Nat, (takenFrom key other (left other) (c :: text))[i]? = some true →
      (takenFrom key old (left old) (c :: text))[i]? ≠ some true)
    (hspares : SparesFrom key put old (left old) (maskFrom key olds new left (c :: text))) :
    Here key old (maskFrom key olds new left (c :: text)) ↔ Here key old (c :: text) := by
  constructor
  · intro hhere
    have hclear : ∀ d ∈ (maskFrom key olds new left (c :: text)).take old.length, ¬ put d := by
      cases hmask : maskFrom key olds new left (c :: text) with
      | nil => simp
      | cons e rest =>
        rw [hmask] at hspares hhere
        have hcons := sparesFrom_cons.mp hspares
        have hnext : SparesFrom key put old (old.length - 1) rest := by
          simpa [leftAfter, hleft, hhere] using hcons.2
        cases hlen : old.length with
        | zero => simp
        | succ n =>
          rw [List.take_succ_cons, List.forall_mem_cons]
          refine ⟨hcons.1 (Or.inr hhere), ?_⟩
          simpa [hlen] using hnext.take
    have hfront : (maskFrom key olds new left (c :: text)).take old.length <+: c :: text :=
      prefix_of_prefix_maskFrom hne hnew hzeros hclear (List.take_prefix _ _)
    have hold : old = ((maskFrom key olds new left (c :: text)).take old.length).map key := by
      rw [List.map_take]
      exact List.prefix_iff_eq_take.mp hhere
    rw [Here, hold]
    exact hfront.map key
  · intro hhere
    have hkept : ∀ other ∈ olds, ∀ i, i < old.length →
        (takenFrom key other (left other) (c :: text))[i]? ≠ some true := by
      intro other hother i hi htaken
      refine hapart other hother i htaken ?_
      rw [hleft]
      exact takenFrom_of_here hhere hi
    have hfront : (c :: text).take old.length <+: maskFrom key olds new left (c :: text) := take_prefix_maskFrom hkept
    have hold : old = ((c :: text).take old.length).map key := by
      rw [List.map_take]
      exact List.prefix_iff_eq_take.mp hhere
    rw [Here, hold]
    exact hfront.map key

/-- The replacement of one more text puts in its masks beside the others', when
it takes out nothing that the others take out and no element that was put in. -/
theorem replaceFrom_maskFrom (hold : old ≠ []) (hne : new ≠ []) (hnew : ∀ c ∈ new, put c) {text : List α}
    {left : List κ → Nat}
    (hapart : ∀ other ∈ olds, ∀ i : Nat, (takenFrom key other (left other) text)[i]? = some true →
      (takenFrom key old (left old) text)[i]? ≠ some true)
    (hspares : SparesFrom key put old (left old) (maskFrom key olds new left text)) :
    replaceFrom key old new (left old) (maskFrom key olds new left text) =
      maskFrom key (old :: olds) new left text := by
  induction text generalizing left with
  | nil => simp
  | cons c text ih =>
    have hafter : ∀ other ∈ olds, ∀ i : Nat,
        (takenFrom key other (leftAfter key left c text other) text)[i]? = some true →
          (takenFrom key old (leftAfter key left c text old) text)[i]? ≠ some true := by
      intro other hother i
      have hnext := hapart other hother (i + 1)
      rwa [takenFrom_cons, takenFrom_cons, List.getElem?_cons_succ, List.getElem?_cons_succ] at hnext
    have hfirst : ∀ other ∈ olds, (left other ≠ 0 ∨ Here key other (c :: text)) →
        left old = 0 ∧ ¬ Here key old (c :: text) := by
      intro other hother htaken
      have hzero := hapart other hother 0
      rw [takenFrom_cons, takenFrom_cons] at hzero
      simpa using hzero (by simpa using htaken)
    by_cases hstart : ∃ other ∈ olds, left other = 0 ∧ Here key other (c :: text)
    · -- an occurrence of another text begins: its mask is in front
      obtain ⟨other, hother, hzero, hhere⟩ := hstart
      obtain ⟨hleft, hnot⟩ := hfirst other hother (Or.inr hhere)
      have hnext : leftAfter key left c text old = 0 := leftAfter_of_not_taken hleft hnot
      rw [maskFrom, if_pos ⟨other, hother, hzero, hhere⟩, hleft] at hspares ⊢
      obtain ⟨heq, hrest⟩ := @replaceFrom_mask_append α κ _ key new put old _ _ hnew hspares
      rw [heq, maskFrom, if_pos ⟨other, List.mem_cons_of_mem _ hother, hzero, hhere⟩]
      congr 1
      rw [← hnext] at hrest ⊢
      exact ih hafter hrest
    · by_cases hwithin : ∃ other ∈ olds, left other ≠ 0
      · -- the rest of another text's occurrence is left out
        obtain ⟨other, hother, hne'⟩ := hwithin
        obtain ⟨hleft, hnot⟩ := hfirst other hother (Or.inl hne')
        have hnext : leftAfter key left c text old = 0 := leftAfter_of_not_taken hleft hnot
        have hstart' : ¬ ∃ o ∈ old :: olds, left o = 0 ∧ Here key o (c :: text) := by
          rintro ⟨o, ho, hzero, hhere⟩
          rcases List.mem_cons.mp ho with rfl | ho
          · exact hnot hhere
          · exact hstart ⟨o, ho, hzero, hhere⟩
        rw [maskFrom, if_neg hstart, if_pos ⟨other, hother, hne'⟩] at hspares ⊢
        rw [maskFrom, if_neg hstart', if_pos ⟨other, List.mem_cons_of_mem _ hother, hne'⟩]
        rw [hleft, ← hnext] at hspares ⊢
        exact ih hafter hspares
      · -- the others keep the element
        have hzeros : ∀ other ∈ olds, left other = 0 := by
          intro other hother
          by_contra hne'
          exact hwithin ⟨other, hother, hne'⟩
        have hzerosAfter : ∀ other ∈ olds, leftAfter key left c text other = 0 := by
          intro other hother
          exact leftAfter_of_not_taken (hzeros other hother)
            fun hhere => hstart ⟨other, hother, hzeros other hother, hhere⟩
        have hmask : maskFrom key olds new left (c :: text) =
            c :: maskFrom key olds new (leftAfter key left c text) text := by
          rw [maskFrom, if_neg hstart, if_neg hwithin]
        rw [hmask] at hspares ⊢
        cases hleft : left old with
        | succ skip =>
          have hstart' : ¬ ∃ o ∈ old :: olds, left o = 0 ∧ Here key o (c :: text) := by
            rintro ⟨o, ho, hzero, hhere⟩
            rcases List.mem_cons.mp ho with rfl | ho
            · omega
            · exact hstart ⟨o, ho, hzero, hhere⟩
          have hwithin' : ∃ o ∈ old :: olds, left o ≠ 0 := ⟨old, List.mem_cons_self, by omega⟩
          have hnext : leftAfter key left c text old = skip := by simp [leftAfter, hleft]
          have hrest : SparesFrom key put old skip (maskFrom key olds new (leftAfter key left c text) text) := by
            simpa [leftAfter, hleft] using (sparesFrom_cons.mp hspares).2
          rw [maskFrom, if_neg hstart', if_pos hwithin', replaceFrom_skip]
          rw [← hnext] at hrest ⊢
          exact ih hafter hrest
        | zero =>
          have hiff : Here key old (c :: maskFrom key olds new (leftAfter key left c text) text) ↔
              Here key old (c :: text) := by
            rw [← hmask]
            exact here_maskFrom_iff hne hnew hzeros hleft hapart (hmask ▸ hspares)
          by_cases hhere : Here key old (c :: text)
          · have hstart' : ∃ o ∈ old :: olds, left o = 0 ∧ Here key o (c :: text) :=
              ⟨old, List.mem_cons_self, hleft, hhere⟩
            have hnext : leftAfter key left c text old = old.length - 1 := by simp [leftAfter, hleft, hhere]
            have hrest : SparesFrom key put old (old.length - 1)
                (maskFrom key olds new (leftAfter key left c text) text) := by
              simpa [leftAfter, hleft, hiff.mpr hhere] using (sparesFrom_cons.mp hspares).2
            rw [maskFrom, if_pos hstart', replaceFrom_here (hiff.mpr hhere), ← hnext]
            congr 1
            exact ih hafter (hnext ▸ hrest)
          · have hstart' : ¬ ∃ o ∈ old :: olds, left o = 0 ∧ Here key o (c :: text) := by
              rintro ⟨o, ho, hzero, hhere'⟩
              rcases List.mem_cons.mp ho with rfl | ho
              · exact hhere hhere'
              · exact hstart ⟨o, ho, hzero, hhere'⟩
            have hwithin' : ¬ ∃ o ∈ old :: olds, left o ≠ 0 := by
              rintro ⟨o, ho, hne'⟩
              rcases List.mem_cons.mp ho with rfl | ho
              · exact hne' hleft
              · exact hwithin ⟨o, ho, hne'⟩
            have hnext : leftAfter key left c text old = 0 := leftAfter_of_not_taken hleft hhere
            have hrest : SparesFrom key put old 0 (maskFrom key olds new (leftAfter key left c text) text) := by
              simpa [leftAfter, hleft, mt hiff.mp hhere] using (sparesFrom_cons.mp hspares).2
            rw [maskFrom, if_neg hstart', if_neg hwithin', replaceFrom_not_here (mt hiff.mp hhere)]
            congr 1
            rw [← hnext] at hrest ⊢
            exact ih hafter hrest

end OneMore

/-! ### All of them -/

/-- Texts that can be replaced in a text in any order: no two of them take out
the same element, and none takes out an element put in for others. -/
structure Independent (key : α → κ) (put : α → Prop) (olds : Set (List κ)) (new text : List α) : Prop where
  apart : ∀ old ∈ olds, ∀ other ∈ olds, old ≠ other → ∀ i, Takes key old text i → ¬ Takes key other text i
  spares : ∀ others : List (List κ), (∀ other ∈ others, other ∈ olds) → ∀ old ∈ olds, old ∉ others →
    SparesFrom key put old 0 (maskAll key others new text)

theorem Independent.mono {put : α → Prop} {olds others : Set (List κ)} {text : List α}
    (h : Independent key put olds new text) (hsub : others ⊆ olds) : Independent key put others new text where
  apart old hold other hother := h.apart old (hsub hold) other (hsub hother)
  spares some hsome old hold := h.spares some (fun other hother => hsub (hsome other hother)) old (hsub hold)

/-- Independent texts, replaced one after another in any order, are all masked. -/
theorem foldl_replace_eq_maskAll {put : α → Prop} (hne : new ≠ []) (hnew : ∀ c ∈ new, put c) {text : List α}
    (hnil : [] ∉ olds) (hnodup : olds.Nodup) (h : Independent key put {old | old ∈ olds} new text) :
    olds.foldl (fun text old => replace key old new text) text = maskAll key olds new text := by
  induction olds using List.reverseRecOn with
  | nil => exact (maskFrom_no_olds _ text).symm
  | append_singleton olds old ih =>
    have hsub : olds ⊆ olds ++ [old] := List.subset_append_left olds [old]
    have hfresh : old ∉ olds := by
      intro hmem
      exact (List.nodup_append.mp hnodup).2.2 old hmem old (List.mem_singleton_self old) rfl
    have hmem : old ∈ olds ++ [old] := by simp
    have holds := ih (fun hin => hnil (hsub hin)) (List.nodup_append.mp hnodup).1 (h.mono fun _ hin => hsub hin)
    rw [List.foldl_append, holds]
    have hstep := @replaceFrom_maskFrom α κ _ key olds new put old (fun hempty => hnil (hempty ▸ hmem)) hne hnew
      text (fun _ => 0)
      (fun other hother i htaken =>
        h.apart other (hsub hother) old hmem (fun heq => hfresh (heq ▸ hother)) i htaken)
      (h.spares olds (fun _ hother => hsub hother) old hmem hfresh)
    calc
      [old].foldl (fun text old => replace key old new text) (maskAll key olds new text) =
          replaceFrom key old new 0 (maskFrom key olds new (fun _ => 0) text) := rfl
      _ = maskFrom key (old :: olds) new (fun _ => 0) text := hstep
      _ = maskAll key (olds ++ [old]) new text := by
        apply maskFrom_congr
        intro o
        simp [or_comm]

end MaskAll

end Replace
