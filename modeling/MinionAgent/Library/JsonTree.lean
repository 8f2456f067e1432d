import Mathlib.Data.List.Basic
import Mathlib.Data.List.Nodup

/-!
# MinionAgent.Library.JsonTree

JSON-shaped trees, over any strings and any numbers.

* `map` — a recoding of the strings and numbers;
* `same` — equality as data, where objects have no order;
* `map_injective`, `same_map` — a recoding that tells apart what it meets keeps
  both equalities.
-/

/-- A JSON-shaped tree. -/
inductive JsonTree (S N : Type)
  | null
  | bool (b : Bool)
  | number (n : N)
  | string (s : S)
  | array (items : List (JsonTree S N))
  | object (entries : List (S × JsonTree S N))

namespace JsonTree

variable {S N S' N' α : Type}

/-- Induction over the parts. -/
@[elab_as_elim]
theorem parts {motive : JsonTree S N → Prop} (null : motive .null) (bool : ∀ b, motive (.bool b))
    (number : ∀ n, motive (.number n)) (string : ∀ s, motive (.string s))
    (array : ∀ items, (∀ t ∈ items, motive t) → motive (.array items))
    (object : ∀ entries, (∀ e ∈ entries, motive e.2) → motive (.object entries)) (t : JsonTree S N) : motive t :=
  match t with
  | .null => null
  | .bool b => bool b
  | .number n => number n
  | .string s => string s
  | .array items => array items fun t _ => parts null bool number string array object t
  | .object entries => object entries fun e _ => parts null bool number string array object e.2
termination_by sizeOf t
decreasing_by
  · have := List.sizeOf_lt_of_mem ‹t ∈ items›
    simp
    omega
  · have := List.sizeOf_lt_of_mem ‹e ∈ entries›
    cases e
    simp at this ⊢
    omega

/-! ## Recoding -/

mutual

/-- Every string and every number recoded. -/
def map (f : S → S') (g : N → N') : JsonTree S N → JsonTree S' N'
  | .null => .null
  | .bool b => .bool b
  | .number n => .number (g n)
  | .string s => .string (f s)
  | .array items => .array (mapItems f g items)
  | .object entries => .object (mapEntries f g entries)

def mapItems (f : S → S') (g : N → N') : List (JsonTree S N) → List (JsonTree S' N')
  | [] => []
  | t :: items => map f g t :: mapItems f g items

def mapEntries (f : S → S') (g : N → N') : List (S × JsonTree S N) → List (S' × JsonTree S' N')
  | [] => []
  | (k, t) :: entries => (f k, map f g t) :: mapEntries f g entries

end

@[simp] theorem mapItems_eq (f : S → S') (g : N → N') (items : List (JsonTree S N)) :
    mapItems f g items = items.map (map f g) := by
  induction items with
  | nil => rfl
  | cons t items ih => rw [mapItems, ih, List.map_cons]

@[simp] theorem mapEntries_eq (f : S → S') (g : N → N') (entries : List (S × JsonTree S N)) :
    mapEntries f g entries = entries.map fun e => (f e.1, map f g e.2) := by
  induction entries with
  | nil => rfl
  | cons e entries ih => rw [mapEntries, ih, List.map_cons]

/-! ## Collecting -/

mutual

/-- What there is in keys, strings and numbers, in order. -/
def collect (key str : S → List α) (num : N → List α) : JsonTree S N → List α
  | .null => []
  | .bool _ => []
  | .number n => num n
  | .string s => str s
  | .array items => collectItems key str num items
  | .object entries => collectEntries key str num entries

def collectItems (key str : S → List α) (num : N → List α) : List (JsonTree S N) → List α
  | [] => []
  | t :: items => collect key str num t ++ collectItems key str num items

def collectEntries (key str : S → List α) (num : N → List α) : List (S × JsonTree S N) → List α
  | [] => []
  | (k, t) :: entries => key k ++ collect key str num t ++ collectEntries key str num entries

end

/-- The strings, keys among them. -/
def strings (t : JsonTree S N) : List S := t.collect (fun k => [k]) (fun s => [s]) fun _ => []

/-- The strings without the keys. -/
def texts (t : JsonTree S N) : List S := t.collect (fun _ => []) (fun s => [s]) fun _ => []

/-- The numbers. -/
def numbers (t : JsonTree S N) : List N := t.collect (fun _ => []) (fun _ => []) fun n => [n]

theorem mem_collectItems {a : α} {key str : S → List α} {num : N → List α} {items : List (JsonTree S N)} :
    a ∈ collectItems key str num items ↔ ∃ t ∈ items, a ∈ t.collect key str num := by
  induction items with
  | nil => simp [collectItems]
  | cons t items ih => rw [collectItems, List.mem_append, ih, List.exists_mem_cons_iff]

theorem mem_collectEntries {a : α} {key str : S → List α} {num : N → List α} {entries : List (S × JsonTree S N)} :
    a ∈ collectEntries key str num entries ↔ ∃ e ∈ entries, a ∈ key e.1 ∨ a ∈ e.2.collect key str num := by
  induction entries with
  | nil => simp [collectEntries]
  | cons e entries ih =>
    rw [collectEntries, List.mem_append, List.mem_append, ih, List.exists_mem_cons_iff]

theorem strings_subset_of_mem {t : JsonTree S N} {items : List (JsonTree S N)} (h : t ∈ items) :
    t.strings ⊆ (array items).strings :=
  fun _ hs => mem_collectItems.mpr ⟨t, h, hs⟩

theorem key_mem_strings {e : S × JsonTree S N} {entries : List (S × JsonTree S N)} (h : e ∈ entries) :
    e.1 ∈ (object entries).strings :=
  mem_collectEntries.mpr ⟨e, h, .inl List.mem_cons_self⟩

theorem strings_subset_of_entry {e : S × JsonTree S N} {entries : List (S × JsonTree S N)} (h : e ∈ entries) :
    e.2.strings ⊆ (object entries).strings :=
  fun _ hs => mem_collectEntries.mpr ⟨e, h, .inr hs⟩

theorem numbers_subset_of_mem {t : JsonTree S N} {items : List (JsonTree S N)} (h : t ∈ items) :
    t.numbers ⊆ (array items).numbers :=
  fun _ hn => mem_collectItems.mpr ⟨t, h, hn⟩

theorem numbers_subset_of_entry {e : S × JsonTree S N} {entries : List (S × JsonTree S N)} (h : e ∈ entries) :
    e.2.numbers ⊆ (object entries).numbers :=
  fun _ hn => mem_collectEntries.mpr ⟨e, h, .inr hn⟩

/-- What is collected for one thing is collected for another wherever it is so at each key, string and number. -/
theorem collect_mono {β : Type} {key str : S → List α} {num : N → List α} {key' str' : S → List β} {num' : N → List β}
    {a : α} {b : β} (hkey : ∀ s, a ∈ key s → b ∈ key' s) (hstr : ∀ s, a ∈ str s → b ∈ str' s)
    (hnum : ∀ n, a ∈ num n → b ∈ num' n) {t : JsonTree S N} (h : a ∈ t.collect key str num) :
    b ∈ t.collect key' str' num' := by
  induction t using parts with
  | null => exact absurd h List.not_mem_nil
  | bool _ => exact absurd h List.not_mem_nil
  | number n => exact hnum n h
  | string s => exact hstr s h
  | array items ih =>
    obtain ⟨t, ht, ha⟩ := mem_collectItems.mp h
    exact mem_collectItems.mpr ⟨t, ht, ih t ht ha⟩
  | object entries ih =>
    obtain ⟨e, he, ha⟩ := mem_collectEntries.mp h
    exact mem_collectEntries.mpr ⟨e, he, ha.imp (hkey e.1) (ih e he)⟩

/-- What is collected of a number. -/
theorem subset_collect_of_mem_numbers {t : JsonTree S N} {n : N} (h : n ∈ t.numbers) (key str : S → List α)
    (num : N → List α) : num n ⊆ t.collect key str num :=
  fun _ ha => collect_mono (by simp) (by simp) (fun m hm => by rwa [← List.mem_singleton.mp hm]) h

/-- What is collected of a string that is no key. -/
theorem subset_collect_of_mem_texts {t : JsonTree S N} {s : S} (h : s ∈ t.texts) (key str : S → List α)
    (num : N → List α) : str s ⊆ t.collect key str num :=
  fun _ ha => collect_mono (by simp) (fun s' hs' => by rwa [← List.mem_singleton.mp hs']) (by simp) h

/-! ## Recodings that tell apart -/

section

variable {f : S → S'} {g : N → N'}

theorem eq_of_map_eq {β γ : Type} {h : β → γ} {xs ys : List β} (hinj : ∀ x ∈ xs, ∀ y ∈ ys, h x = h y → x = y)
    (heq : xs.map h = ys.map h) : xs = ys := by
  induction xs generalizing ys with
  | nil => simpa using heq.symm
  | cons x xs ih =>
    cases ys with
    | nil => cases heq
    | cons y ys =>
      rw [List.map_cons, List.map_cons, List.cons.injEq] at heq
      have hrest := ih (fun x' hx' y' hy' => hinj x' (List.mem_cons_of_mem _ hx') y' (List.mem_cons_of_mem _ hy')) heq.2
      rw [hinj x List.mem_cons_self y List.mem_cons_self heq.1, hrest]

/-- A recoding that tells apart the strings and the numbers of two trees tells apart the trees. -/
theorem map_injective {v w : JsonTree S N} (hf : ∀ s ∈ v.strings, ∀ s' ∈ w.strings, f s = f s' → s = s')
    (hg : ∀ n ∈ v.numbers, ∀ n' ∈ w.numbers, g n = g n' → n = n') (h : v.map f g = w.map f g) : v = w := by
  induction v using parts generalizing w with
  | null => cases w <;> simp_all [map]
  | bool b => cases w <;> simp_all [map]
  | number n =>
    cases w with
    | number n' => rw [hg n (by simp [numbers, collect]) n' (by simp [numbers, collect]) (by simpa [map] using h)]
    | _ => simp [map] at h
  | string s =>
    cases w with
    | string s' => rw [hf s (by simp [strings, collect]) s' (by simp [strings, collect]) (by simpa [map] using h)]
    | _ => simp [map] at h
  | array items ih =>
    cases w with
    | array items' =>
      refine congrArg array (eq_of_map_eq (fun t ht t' ht' heq => ?_) (by simpa [map] using h))
      exact ih t ht (fun s hs s' hs' => hf s (strings_subset_of_mem ht hs) s' (strings_subset_of_mem ht' hs'))
        (fun n hn n' hn' => hg n (numbers_subset_of_mem ht hn) n' (numbers_subset_of_mem ht' hn')) heq
    | _ => simp [map] at h
  | object entries ih =>
    cases w with
    | object entries' =>
      have hmap : (entries.map fun e => (f e.1, map f g e.2)) = entries'.map fun e => (f e.1, map f g e.2) := by
        simpa [map] using h
      refine congrArg object (eq_of_map_eq (fun e he e' he' heq => ?_) hmap)
      obtain ⟨hkey, hvalue⟩ := Prod.mk.injEq .. ▸ heq
      refine Prod.ext (hf e.1 (key_mem_strings he) e'.1 (key_mem_strings he') hkey) ?_
      exact ih e he (fun s hs s' hs' => hf s (strings_subset_of_entry he hs) s' (strings_subset_of_entry he' hs'))
        (fun n hn n' hn' => hg n (numbers_subset_of_entry he hn) n' (numbers_subset_of_entry he' hn')) hvalue
    | _ => simp [map] at h

end

/-! ## Children -/

variable [BEq S] (index? : S → Option Nat)

/-- The part at a token: an entry of an object, or an element of an array. -/
def child : JsonTree S N → S → Option (JsonTree S N)
  | .array items, token => (index? token).bind (items[·]?)
  | .object entries, token => entries.lookup token
  | _, _ => none

/-- The part along tokens. -/
def follow (t : JsonTree S N) : List S → Option (JsonTree S N)
  | [] => some t
  | token :: tokens => (t.child index? token).bind (follow · tokens)

theorem follow_append (t : JsonTree S N) (tokens more : List S) :
    t.follow index? (tokens ++ more) = (t.follow index? tokens).bind (follow index? · more) := by
  induction tokens generalizing t with
  | nil => rfl
  | cons token tokens ih =>
    rw [List.cons_append, follow, follow, Option.bind_assoc]
    exact Option.bind_congr fun child _ => ih child

/-! ## Equality as data -/

mutual

/-- Equality of data: the order of entries does not count, and numbers are compared by `eq`. -/
def same (eq : N → N → Bool) : JsonTree S N → JsonTree S N → Bool
  | .null, other => match other with
    | .null => true
    | _ => false
  | .bool b, other => match other with
    | .bool b' => b == b'
    | _ => false
  | .number n, other => match other with
    | .number n' => eq n n'
    | _ => false
  | .string s, other => match other with
    | .string s' => s == s'
    | _ => false
  | .array items, other => match other with
    | .array items' => sameItems eq items items'
    | _ => false
  | .object entries, other => match other with
    | .object entries' => entries.length == entries'.length && sameEntries eq entries entries'
    | _ => false

def sameItems (eq : N → N → Bool) : List (JsonTree S N) → List (JsonTree S N) → Bool
  | [], [] => true
  | t :: items, t' :: items' => same eq t t' && sameItems eq items items'
  | _, _ => false

def sameEntries (eq : N → N → Bool) : List (S × JsonTree S N) → List (S × JsonTree S N) → Bool
  | [], _ => true
  | (k, t) :: entries, entries' => (entries'.lookup k).any (same eq t) && sameEntries eq entries entries'

end

theorem sameEntries_eq (eq : N → N → Bool) (entries entries' : List (S × JsonTree S N)) :
    sameEntries eq entries entries' = entries.all fun e => (entries'.lookup e.1).any (same eq e.2) := by
  induction entries with
  | nil => rfl
  | cons e entries ih => rw [sameEntries, ih, List.all_cons]

/-! ## Recodings and equality -/

theorem lookup_map [LawfulBEq S] [BEq S'] [LawfulBEq S'] {β γ : Type} {f : S → S'} (h : S → β → γ) {k : S}
    {entries : List (S × β)} (hf : ∀ e ∈ entries, f k = f e.1 → k = e.1) :
    (entries.map fun e => (f e.1, h e.1 e.2)).lookup (f k) = (entries.lookup k).map (h k) := by
  induction entries with
  | nil => rfl
  | cons e entries ih =>
    have hrest := ih fun e' he' => hf e' (List.mem_cons_of_mem _ he')
    rw [List.map_cons, List.lookup_cons, List.lookup_cons]
    by_cases hk : k = e.1
    · simp [hk]
    · have hfk : f k ≠ f e.1 := fun heq => hk (hf e List.mem_cons_self heq)
      rw [beq_false_of_ne hk, beq_false_of_ne hfk]
      exact hrest

/-- A recoding that tells apart what it meets keeps equality as data. -/
theorem same_map [LawfulBEq S] [BEq S'] [LawfulBEq S'] {f : S → S'} {g : N → N'} {eq : N → N → Bool}
    {eq' : N' → N' → Bool} {v w : JsonTree S N}
    (hf : ∀ s ∈ v.strings, ∀ s' ∈ w.strings, f s = f s' → s = s')
    (hg : ∀ n ∈ v.numbers, ∀ n' ∈ w.numbers, eq' (g n) (g n') = eq n n') :
    same eq' (v.map f g) (w.map f g) = same eq v w := by
  induction v using parts generalizing w with
  | null => cases w <;> rfl
  | bool b => cases w <;> rfl
  | number n =>
    cases w with
    | number n' => exact hg n (by simp [numbers, collect]) n' (by simp [numbers, collect])
    | _ => rfl
  | string s =>
    cases w with
    | string s' =>
      have hs := hf s (by simp [strings, collect]) s' (by simp [strings, collect])
      by_cases heq : s = s'
      · simp [map, same, heq]
      · have hne : f s ≠ f s' := fun h => heq (hs h)
        simp [map, same, heq, hne]
    | _ => rfl
  | array items ih =>
    cases w with
    | array items' =>
      show sameItems eq' (mapItems f g items) (mapItems f g items') = sameItems eq items items'
      induction items generalizing items' with
      | nil => cases items' <;> rfl
      | cons t items ihitems =>
        cases items' with
        | nil => rfl
        | cons t' items' =>
          rw [mapItems, mapItems, sameItems, sameItems]
          congr 1
          · exact ih t List.mem_cons_self
              (fun s hs s' hs' => hf s (strings_subset_of_mem List.mem_cons_self hs) s'
                (strings_subset_of_mem List.mem_cons_self hs'))
              (fun n hn n' hn' => hg n (numbers_subset_of_mem List.mem_cons_self hn) n'
                (numbers_subset_of_mem List.mem_cons_self hn'))
          · refine ihitems (fun t ht => ih t (List.mem_cons_of_mem _ ht)) items' ?_ ?_
            · exact fun s hs s' hs' => hf s (List.mem_append_right _ hs) s' (List.mem_append_right _ hs')
            · exact fun n hn n' hn' => hg n (List.mem_append_right _ hn) n' (List.mem_append_right _ hn')
    | _ => rfl
  | object entries ih =>
    cases w with
    | object entries' =>
      simp only [map, same, mapEntries_eq, sameEntries_eq, List.length_map]
      congr 1
      rw [List.all_map, Bool.eq_iff_iff, List.all_eq_true, List.all_eq_true]
      refine forall₂_congr fun e he => ?_
      have hkeys : ∀ e' ∈ entries', f e.1 = f e'.1 → e.1 = e'.1 := fun e' he' =>
        hf e.1 (key_mem_strings he) e'.1 (key_mem_strings he')
      rw [Function.comp_apply, lookup_map (fun _ => map f g) hkeys, Option.any_map]
      cases hlookup : entries'.lookup e.1 with
      | none => rfl
      | some t' =>
        have hmem : (e.1, t') ∈ entries' := by
          obtain ⟨front, behind, heq, -⟩ := List.lookup_eq_some_iff.mp hlookup
          simp [heq]
        have hrec := ih e he
          (fun s hs s' hs' => hf s (strings_subset_of_entry he hs) s' (strings_subset_of_entry hmem hs'))
          (fun n hn n' hn' => hg n (numbers_subset_of_entry he hn) n' (numbers_subset_of_entry hmem hn'))
        exact Bool.eq_iff_iff.mp hrec
    | _ => rfl

end JsonTree
