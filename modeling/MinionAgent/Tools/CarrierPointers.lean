import MinionAgent.Tools.CarrierFaithful

/-!
# MinionAgent.Tools.CarrierPointers

References within a schema, and what becomes of them in the encoded schema.

The encoder goes through a schema in three modes: through schemas, through maps from
names to schemas, and through literals.  It does not know all the maps there are.

* `child_encodeIn`, `follow_encodeIn` — where tokens lead in the encoded schema;
* `encodeIn_eq_iff` — when two modes encode a value alike;
* `resolves_iff` — when a reference leads to the encoding of what it led to.
-/

namespace MinionAgent.PreparedValidation

open NumericCarrier (mapKeys literalKeys referenceKeys reference? isObject)

/-! ## Places -/

/-- A token that is an index into an array. -/
def index? (token : PreparedString) : Option Nat :=
  if token ≠ [] ∧ token.all (fun u => 48 ≤ u && u ≤ 57) ∧ (token.length = 1 ∨ token.head? ≠ some 48) then
    some (token.foldl (fun n u => n * 10 + (u.toNat - 48)) 0)
  else none

/-- What the encoder takes a value for. -/
inductive Mode
  | schema
  | names
  | literal
deriving DecidableEq

/-- What it takes an entry of an object for, if `maps` are the keywords of maps. -/
def Mode.entry (maps : List PreparedString) : Mode → PreparedString → PreparedValue → Mode
  | .schema, key, child =>
    if maps.contains key && isObject child then .names else if literalKeys.contains key then .literal else .schema
  | .names, _, _ => .schema
  | .literal, _, _ => .literal

/-- What it takes a part for; elements of an array are taken for what the array is. -/
def Mode.child (maps : List PreparedString) (mode : Mode) (parent : PreparedValue) (token : PreparedString)
    (child : PreparedValue) : Mode :=
  match parent with
  | .object _ => mode.entry maps token child
  | _ => mode

/-- The value at a place, and what it is taken for. -/
def walk (maps : List PreparedString) (mode : Mode) (v : PreparedValue) :
    List PreparedString → Option (Mode × PreparedValue)
  | [] => some (mode, v)
  | token :: tokens => (v.child index? token).bind fun child => walk maps (mode.child maps v token child) child tokens

/-- The keywords of maps, in all drafts. -/
def schemaMaps : List PreparedString := mapKeys ++ [units "dependencies"]

/-- A schema is an object or a truth value. -/
def isSchema : PreparedValue → Bool
  | .object _ => true
  | .bool _ => true
  | _ => false

/-- Where tokens lead to a subschema. -/
def Subschema (schema : PreparedValue) (tokens : List PreparedString) (sub : PreparedValue) : Prop :=
  walk schemaMaps .schema schema tokens = some (.schema, sub) ∧ isSchema sub = true

/-- Where a reference is: in a subschema, under one of the keywords. -/
def IsReference (schema : PreparedValue) (path : List PreparedString) (key text : PreparedString) : Prop :=
  ∃ entries, Subschema schema path (.object entries) ∧ entries.lookup key = some (.string text) ∧
    reference? key (.string text) = some text

/-! ## Modes that agree -/

/-- A reference that rewriting leaves as it is. -/
def isPlain (text : PreparedString) : Bool := asStr text == some text && pointer.text (segments text) == text

mutual

/-- Both modes rewrite the same references of a value, but for plain ones. -/
def agrees (mode mode' : Mode) : PreparedValue → Bool
  | .null => true
  | .bool _ => true
  | .number _ => true
  | .string _ => true
  | .array items => agreesItems mode mode' items
  | .object entries => agreesEntries mode mode' entries

def agreesItems (mode mode' : Mode) : List PreparedValue → Bool
  | [] => true
  | v :: items => agrees mode mode' v && agreesItems mode mode' items

def agreesEntries (mode mode' : Mode) : List (PreparedString × PreparedValue) → Bool
  | [] => true
  | (k, v) :: entries =>
    (match reference? k v with
      | some text => (decide (mode = .schema) == decide (mode' = .schema)) || isPlain text
      | none => agrees (mode.entry mapKeys k v) (mode'.entry mapKeys k v) v) && agreesEntries mode mode' entries

end

/-- An entry is encoded alike in both modes. -/
def agreesEntry (mode mode' : Mode) (key : PreparedString) (child : PreparedValue) : Bool :=
  match reference? key child with
  | some text => (decide (mode = .schema) == decide (mode' = .schema)) || isPlain text
  | none => agrees (mode.entry mapKeys key child) (mode'.entry mapKeys key child) child

theorem agreesItems_eq (mode mode' : Mode) (items : List PreparedValue) :
    agreesItems mode mode' items = items.all (agrees mode mode') := by
  induction items with
  | nil => rfl
  | cons v items ih => rw [agreesItems, ih, List.all_cons]

theorem agreesEntries_eq (mode mode' : Mode) (entries : List (PreparedString × PreparedValue)) :
    agreesEntries mode mode' entries = entries.all fun e => agreesEntry mode mode' e.1 e.2 := by
  induction entries with
  | nil => rfl
  | cons e entries ih =>
    rw [agreesEntries, ih, List.all_cons]
    rfl

/-! ## Indices and texts -/

theorem asStr_of_all {s : PreparedString} (h : ∀ u ∈ s, u.toNat < 0x80) : asStr s = some s := by
  have hall : (decode16 s).all (fun c => (scalar? c).isSome) = true := by
    induction s with
    | nil => rfl
    | cons u s ih =>
      have hu := h u List.mem_cons_self
      rw [decode16_cons (.inl (by omega)), List.all_cons, ih fun u' hu' => h u' (List.mem_cons_of_mem _ hu'),
        Bool.and_true, scalar?, dif_pos]
      · rfl
      · rw [codePoint_val (by omega)]
        exact .inl (by omega)
  rw [asStr, if_pos hall]

theorem asStr_eq_some_iff {s : PreparedString} :
    asStr s = some s ↔ (decode16 s).all (fun c => (scalar? c).isSome) = true := by
  unfold asStr
  split <;> simp_all

/-- A text falls apart at a unit that is no surrogate. -/
theorem asStr_append_cons {unit : UInt16} (h : unit.toNat < 0xD800) (front rest : PreparedString) :
    asStr (front ++ unit :: rest) = some (front ++ unit :: rest) ↔
      asStr front = some front ∧ asStr rest = some rest := by
  have hunit : (scalar? (Rfc8259.codePoint unit.toNat)).isSome = true := by
    rw [scalar?, dif_pos]
    · rfl
    · rw [codePoint_val (by omega)]
      exact .inl h
  rw [asStr_eq_some_iff, asStr_eq_some_iff, asStr_eq_some_iff, decode16_append front (.inl h), List.all_append,
    List.all_cons, hunit, Bool.true_and, Bool.and_eq_true]

theorem asStr_cons {unit : UInt16} (h : unit.toNat < 0xD800) (rest : PreparedString) :
    asStr (unit :: rest) = some (unit :: rest) ↔ asStr rest = some rest := by
  have happend := asStr_append_cons h [] rest
  rwa [List.nil_append, and_iff_right (by decide)] at happend

/-- What a token of a text stands for is a text. -/
theorem asStr_decode {token : PreparedString} (h : asStr token = some token) :
    asStr (pointer.decode token) = some (pointer.decode token) := by
  induction hlength : token.length using Nat.strong_induction_on generalizing token with
  | _ length ih =>
    by_cases htilde : (126 : UInt16) ∈ token
    · obtain ⟨front, rest, rfl, hfront⟩ := List.eq_append_cons_of_mem htilde
      obtain ⟨hfront_text, hrest⟩ := (asStr_append_cons (by decide) front rest).mp h
      rw [JsonPointer.decode_append pointer hfront]
      cases rest with
      | nil => exact (asStr_append_cons (by decide) front []).mpr ⟨hfront_text, rfl⟩
      | cons d rest =>
        rw [List.length_append, List.length_cons, List.length_cons] at hlength
        rw [JsonPointer.decode]
        split_ifs with hescape hzero
        · have hd : d.toNat < 0xD800 := hzero ▸ by decide
          have hinner := ih rest.length (by omega) ((asStr_cons hd rest).mp hrest) rfl
          exact (asStr_append_cons (by decide) front _).mpr ⟨hfront_text, hinner⟩
        · have hd : d.toNat < 0xD800 := (hescape.2.resolve_left hzero) ▸ by decide
          have hinner := ih rest.length (by omega) ((asStr_cons hd rest).mp hrest) rfl
          exact (asStr_append_cons (by decide) front _).mpr ⟨hfront_text, hinner⟩
        · have hinner := ih (d :: rest).length (by rw [List.length_cons]; omega) hrest rfl
          exact (asStr_append_cons (by decide) front _).mpr ⟨hfront_text, hinner⟩
    · have hself := JsonPointer.decode_append pointer htilde []
      rw [List.append_nil] at hself
      rw [hself]
      simpa [JsonPointer.decode] using h

/-- The parts of a text are texts. -/
theorem asStr_of_mem_splitOn {body part : PreparedString} (h : asStr body = some body)
    (hpart : part ∈ body.splitOn 47) : asStr part = some part := by
  induction hlength : body.length using Nat.strong_induction_on generalizing body with
  | _ length ih =>
    by_cases hslash : (47 : UInt16) ∈ body
    · obtain ⟨front, rest, rfl, hfront⟩ := List.eq_append_cons_of_mem hslash
      obtain ⟨hfront_text, hrest⟩ := (asStr_append_cons (by decide) front rest).mp h
      rw [List.splitOn_append_cons_self_of_not_mem hfront, List.mem_cons] at hpart
      cases hpart with
      | inl heq => rwa [heq]
      | inr hmem => exact ih rest.length (by simp at hlength; omega) hrest hmem rfl
    · rw [List.splitOn_eq_singleton hslash, List.mem_singleton] at hpart
      rwa [hpart]

/-- The segments of a reference that is a text are texts. -/
theorem asStr_of_mem_segments {text segment : PreparedString} (hpointer : pointer.isPointer text = true)
    (h : asStr text = some text) (hsegment : segment ∈ segments text) : asStr segment = some segment := by
  obtain ⟨body, rfl⟩ := List.isPrefixOf_iff_prefix.mp hpointer
  obtain ⟨token, htoken, rfl⟩ := List.mem_map.mp hsegment
  have hbody : asStr body = some body := (asStr_cons (by decide) body).mp ((asStr_cons (by decide) _).mp h)
  exact asStr_decode (asStr_of_mem_splitOn hbody htoken)

/-- An index is a text. -/
theorem asStr_of_index? {token : PreparedString} {i : Nat} (h : index? token = some i) : asStr token = some token := by
  unfold index? at h
  split at h
  · rename_i hdigits
    refine asStr_of_all fun u hu => ?_
    have hu' := List.all_eq_true.mp hdigits.2.1 u hu
    simp only [Bool.and_eq_true, decide_eq_true_eq, UInt16.le_iff_toNat_le] at hu'
    have hle : u.toNat ≤ 57 := hu'.2
    omega
  · cases h

theorem exists_tagText (i : Nat) : ∃ rest, tagText i = 95 :: rest := ⟨_, rfl⟩

/-- A tag is no pointer. -/
theorem tokens?_tagText (i : Nat) : pointer.tokens? (tagText i) = none := by
  obtain ⟨rest, hrest⟩ := exists_tagText i
  rw [hrest, JsonPointer.tokens?, if_neg]
  simp [JsonPointer.isPointer, pointer]

section

variable {c : NumericCarrier} {all : List PreparedString} {used : List Nat}

theorem encodeString_of_asStr {s : PreparedString} (h : asStr s = some s) : c.encodeString s = s := by
  rw [NumericCarrier.encodeString, NumericCarrier.encodeString?, h]
  rfl

/-- What is no text is encoded as a tag. -/
theorem Carries.encodeString_tag (hc : Carries c all used) {s : PreparedString} (hs : s ∈ all) (h : asStr s = none) :
    ∃ i, c.encodeString s = tagText i := by
  obtain ⟨t, ht, -⟩ := hc.encodeString hs
  rw [NumericCarrier.encodeString, ht, Option.getD_some]
  rw [NumericCarrier.encodeString?, h] at ht
  obtain ⟨entry, hentry, rfl⟩ := Option.map_eq_some_iff.mp ht
  exact (hc.tag entry.1 (List.mem_map_of_mem (List.mem_of_find?_eq_some hentry))).2

theorem asStr_cases (s : PreparedString) : asStr s = some s ∨ asStr s = none := by
  cases h : asStr s with
  | some text => exact .inl (by rw [asStr_eq_some h])
  | none => exact .inr rfl

/-! ## The encoding of a part -/

/-- The encoding of a value that is taken for something. -/
def encodeIn (c : NumericCarrier) : Mode → PreparedValue → Value
  | .schema, v => c.encodeSchema v
  | .names, v => c.encodeMap v
  | .literal, v => c.encode v

/-- The encoding of an entry of an object. -/
def encodeEntry (c : NumericCarrier) (mode : Mode) (key : PreparedString) (child : PreparedValue) : Value :=
  match mode with
  | .schema =>
    match reference? key child with
    | some text => .string (c.rewrite text)
    | none => encodeIn c (mode.entry mapKeys key child) child
  | _ => encodeIn c (mode.entry mapKeys key child) child

@[simp] theorem encodeSchemas_eq (items : List PreparedValue) : c.encodeSchemas items = items.map c.encodeSchema := by
  induction items with
  | nil => rfl
  | cons v items ih => rw [NumericCarrier.encodeSchemas, ih, List.map_cons]

@[simp] theorem encodeMembers_eq (entries : List (PreparedString × PreparedValue)) :
    c.encodeMembers entries = entries.map fun e => (c.encodeString e.1, encodeEntry c .schema e.1 e.2) := by
  induction entries with
  | nil => rfl
  | cons e entries ih =>
    rw [NumericCarrier.encodeMembers, ih, List.map_cons]
    congr 2
    cases href : reference? e.1 e.2 with
    | some text => simp only [encodeEntry, href]
    | none =>
      simp only [encodeEntry, href, Mode.entry]
      split_ifs <;> rfl

@[simp] theorem encodeSubschemas_eq (entries : List (PreparedString × PreparedValue)) :
    c.encodeSubschemas entries = entries.map fun e => (c.encodeString e.1, encodeEntry c .names e.1 e.2) := by
  induction entries with
  | nil => rfl
  | cons e entries ih =>
    rw [NumericCarrier.encodeSubschemas, ih, List.map_cons]
    rfl

/-- An object is encoded entry by entry. -/
theorem encodeIn_object (mode : Mode) (entries : List (PreparedString × PreparedValue)) :
    encodeIn c mode (.object entries) =
      .object (entries.map fun e => (c.encodeString e.1, encodeEntry c mode e.1 e.2)) := by
  cases mode with
  | schema => exact congrArg JsonTree.object (encodeMembers_eq entries)
  | names => exact congrArg JsonTree.object (encodeSubschemas_eq entries)
  | literal =>
    show JsonTree.object _ = _
    rw [JsonTree.mapEntries_eq]
    rfl

/-- An array is encoded element by element; a map from names is no array. -/
theorem encodeIn_array {mode : Mode} (hmode : mode ≠ .names) (items : List PreparedValue) :
    encodeIn c mode (.array items) = .array (items.map (encodeIn c mode)) := by
  cases mode with
  | schema => exact congrArg JsonTree.array (encodeSchemas_eq items)
  | names => exact absurd rfl hmode
  | literal =>
    show JsonTree.array _ = _
    rw [JsonTree.mapItems_eq]
    rfl

/-- What has no parts is encoded alike in all modes. -/
theorem encodeIn_leaf {v : PreparedValue} (mode : Mode) (harray : ∀ items, v ≠ .array items)
    (hobject : ∀ entries, v ≠ .object entries) : encodeIn c mode v = c.encode v := by
  cases mode with
  | schema => cases v <;> first | rfl | simp_all
  | names => cases v <;> first | rfl | simp_all
  | literal => rfl

/-- The encoding of a part. -/
def encodePart (c : NumericCarrier) (mode : Mode) (parent : PreparedValue) (token : PreparedString)
    (child : PreparedValue) : Value :=
  match parent with
  | .object _ => encodeEntry c mode token child
  | _ => encodeIn c mode child

/-- Where a token leads in the encoding. -/
theorem Carries.child_encodeIn (hc : Carries c all used) {mode : Mode} {v child : PreparedValue}
    {token : PreparedString} (hmode : mode = .names → isObject v = true) (hv : v.strings ⊆ all)
    (h : v.child index? token = some child) :
    (encodeIn c mode v).child index? (c.encodeString token) = some (encodePart c mode v token child) := by
  cases v with
  | array items =>
    have hnames : mode ≠ .names := fun h => by cases hmode h
    obtain ⟨i, hindex, hi⟩ := Option.bind_eq_some_iff.mp h
    rw [encodeIn_array hnames, encodeString_of_asStr (asStr_of_index? hindex)]
    show ((index? token).bind fun i => (items.map (encodeIn c mode))[i]?) = some (encodeIn c mode child)
    rw [hindex, Option.bind_some, List.getElem?_map, hi, Option.map_some]
  | object entries =>
    have hlookup : entries.lookup token = some child := h
    have htoken : token ∈ all := hv (JsonTree.key_mem_strings (GraphCopy.mem_of_lookup hlookup))
    have hmap := JsonTree.lookup_map (encodeEntry c mode) fun e he =>
      hc.encodeString_injective htoken (hv (JsonTree.key_mem_strings he))
    rw [encodeIn_object]
    exact hmap.trans (by rw [hlookup, Option.map_some]; rfl)
  | _ => cases h

/-! ## Along tokens -/

variable {mode : Mode} {maps : List PreparedString} {tokens : List PreparedString} {token : PreparedString}

theorem isObject_of_entry {key : PreparedString} {child : PreparedValue}
    (h : mode.entry maps key child = .names) : isObject child = true := by
  cases mode with
  | schema =>
    simp only [Mode.entry] at h
    split_ifs at h with hmap
    exact (Bool.and_eq_true_iff.mp hmap).2
  | names => cases h
  | literal => cases h

/-- Only objects are taken for maps from names, and an array is not. -/
theorem isObject_of_child {parent child : PreparedValue} (hmode : mode = .names → isObject parent = true)
    (h : mode.child maps parent token child = .names) : isObject child = true := by
  cases parent with
  | object entries => exact isObject_of_entry h
  | _ => cases hmode h

theorem strings_child {v child : PreparedValue} (h : v.child index? token = some child) :
    child.strings ⊆ v.strings := by
  cases v with
  | array items =>
    obtain ⟨i, -, hi⟩ := Option.bind_eq_some_iff.mp h
    exact JsonTree.strings_subset_of_mem (List.mem_of_getElem? hi)
  | object entries => exact JsonTree.strings_subset_of_entry (GraphCopy.mem_of_lookup h)
  | _ => cases h

/-- What is not taken for a reference is encoded as what it is taken for. -/
theorem encodePart_eq {parent child : PreparedValue} (h : ∀ s, child ≠ .string s) :
    encodePart c mode parent token child = encodeIn c (mode.child mapKeys parent token child) child := by
  cases parent with
  | object entries =>
    have href : reference? token child = none := by
      cases child with
      | string s => exact absurd rfl (h s)
      | _ => rfl
    cases mode with
    | schema => simp only [encodePart, encodeEntry, href, Mode.child]
    | _ => rfl
  | _ => rfl

/-- Where tokens lead in the encoding, if not to a string. -/
theorem Carries.follow_encodeIn (hc : Carries c all used) {mode mode' : Mode} {v sub : PreparedValue}
    (hmode : mode = .names → isObject v = true) (hv : v.strings ⊆ all) (hsub : ∀ s, sub ≠ .string s)
    (h : walk mapKeys mode v tokens = some (mode', sub)) :
    (encodeIn c mode v).follow index? (tokens.map c.encodeString) = some (encodeIn c mode' sub) := by
  induction tokens generalizing mode v with
  | nil =>
    cases h
    rfl
  | cons token tokens ih =>
    obtain ⟨child, hchild, hwalk⟩ := Option.bind_eq_some_iff.mp h
    have hstring : ∀ s, child ≠ .string s := by
      intro s hs
      subst hs
      cases tokens with
      | nil =>
        cases hwalk
        exact hsub s rfl
      | cons token' tokens => cases hwalk
    rw [List.map_cons, JsonTree.follow, hc.child_encodeIn hmode hv hchild, Option.bind_some, encodePart_eq hstring]
    exact ih (isObject_of_child hmode) (fun _ hs => hv (strings_child hchild hs)) hwalk

/-- All walks come to the same value. -/
theorem walk_maps {mode m : Mode} {v sub : PreparedValue} (h : walk maps mode v tokens = some (m, sub))
    (maps' : List PreparedString) (mode' : Mode) : ∃ m', walk maps' mode' v tokens = some (m', sub) := by
  induction tokens generalizing mode mode' v with
  | nil =>
    cases h
    exact ⟨mode', rfl⟩
  | cons token tokens ih =>
    obtain ⟨child, hchild, hwalk⟩ := Option.bind_eq_some_iff.mp h
    obtain ⟨m', hm'⟩ := ih hwalk (mode'.child maps' v token child)
    exact ⟨m', by rw [walk, hchild, Option.bind_some, hm']⟩

/-- What is taken for a map from names is an object. -/
theorem isObject_of_walk {v sub : PreparedValue} (hmode : mode = .names → isObject v = true)
    (h : walk maps mode v tokens = some (.names, sub)) : isObject sub = true := by
  induction tokens generalizing mode v with
  | nil =>
    cases h
    exact hmode rfl
  | cons token tokens ih =>
    obtain ⟨child, -, hwalk⟩ := Option.bind_eq_some_iff.mp h
    exact ih (isObject_of_child hmode) hwalk

theorem strings_walk {mode m : Mode} {v sub : PreparedValue} (h : walk maps mode v tokens = some (m, sub)) :
    sub.strings ⊆ v.strings := by
  induction tokens generalizing mode v with
  | nil =>
    cases h
    exact fun _ hs => hs
  | cons token tokens ih =>
    obtain ⟨child, hchild, hwalk⟩ := Option.bind_eq_some_iff.mp h
    exact fun _ hs => strings_child hchild (ih hwalk hs)

/-! ## Modes that encode alike -/

theorem rewrite_eq_cons (text : PreparedString) : ∃ rest, c.rewrite text = 35 :: rest := ⟨_, rfl⟩

/-- Rewriting leaves plain references as they are, and no others. -/
theorem Carries.rewrite_eq_iff (hc : Carries c all used) {text : PreparedString} (htext : text ∈ all)
    (hpointer : pointer.isPointer text = true) : c.rewrite text = c.encodeString text ↔ isPlain text = true := by
  unfold isPlain
  cases asStr_cases text with
  | inl hasStr =>
    have hsegments : (segments text).map c.encodeString = segments text :=
      (List.map_congr_left fun segment hsegment =>
        encodeString_of_asStr (asStr_of_mem_segments hpointer hasStr hsegment)).trans (List.map_id _)
    rw [encodeString_of_asStr hasStr, hasStr, NumericCarrier.rewrite, hsegments]
    simp
  | inr hnone =>
    obtain ⟨i, hi⟩ := hc.encodeString_tag htext hnone
    obtain ⟨rest, hrest⟩ := exists_tagText i
    obtain ⟨rest', hrest'⟩ := rewrite_eq_cons (c := c) text
    rw [hi, hrest, hrest', hnone]
    simp

theorem encodeIn_string (mode : Mode) (text : PreparedString) :
    encodeIn c mode (.string text) = .string (c.encodeString text) :=
  encodeIn_leaf mode (by simp) (by simp)

theorem reference?_eq_some {key text : PreparedString} {v : PreparedValue} (h : reference? key v = some text) :
    v = .string text ∧ pointer.isPointer text = true := by
  unfold NumericCarrier.reference? at h
  split at h
  · split at h
    · rename_i hkey
      obtain rfl := Option.some.inj h
      exact ⟨rfl, (Bool.and_eq_true_iff.mp hkey).2⟩
    · cases h
  · cases h

/-- The encoding of a reference. -/
theorem encodeEntry_reference {key text : PreparedString} {v : PreparedValue}
    (h : reference? key v = some text) :
    encodeEntry c mode key v = .string (if mode = .schema then c.rewrite text else c.encodeString text) := by
  obtain ⟨rfl, -⟩ := reference?_eq_some h
  cases mode with
  | schema => simp only [encodeEntry, h, if_true]
  | names =>
    rw [if_neg (by decide)]
    exact encodeIn_string .schema text
  | literal =>
    rw [if_neg (by decide)]
    exact encodeIn_string .literal text

theorem encodeEntry_other {key : PreparedString} {v : PreparedValue} (h : reference? key v = none) :
    encodeEntry c mode key v = encodeIn c (mode.entry mapKeys key v) v := by
  cases mode with
  | schema => simp only [encodeEntry, h]
  | names => rfl
  | literal => rfl

/-- Two modes encode a value alike where they rewrite the same references. -/
theorem Carries.encodeIn_eq_iff (hc : Carries c all used) {v : PreparedValue} (hv : v.strings ⊆ all) {mode mode' : Mode}
    (hmode : mode = .names → isObject v = true) (hmode' : mode' = .names → isObject v = true) :
    encodeIn c mode v = encodeIn c mode' v ↔ agrees mode mode' v = true := by
  induction v using JsonTree.parts generalizing mode mode' with
  | array items ih =>
    have hnames : mode ≠ .names := fun h => by cases hmode h
    have hnames' : mode' ≠ .names := fun h => by cases hmode' h
    rw [encodeIn_array hnames, encodeIn_array hnames', JsonTree.array.injEq, List.map_inj_left, agrees, agreesItems_eq,
      List.all_eq_true]
    refine forall₂_congr fun t ht => ih t ht (fun _ hs => hv (JsonTree.strings_subset_of_mem ht hs)) ?_ ?_
    · exact fun h => absurd h hnames
    · exact fun h => absurd h hnames'
  | object entries ih =>
    rw [encodeIn_object, encodeIn_object, JsonTree.object.injEq, List.map_inj_left, agrees, agreesEntries_eq,
      List.all_eq_true]
    refine forall₂_congr fun e he => ?_
    rw [Prod.mk.injEq, and_iff_right rfl, agreesEntry]
    have hstrings : e.2.strings ⊆ all := fun _ hs => hv (JsonTree.strings_subset_of_entry he hs)
    cases href : reference? e.1 e.2 with
    | some text =>
      obtain ⟨hstring, hpointer⟩ := reference?_eq_some href
      have htext : text ∈ all := hstrings (by rw [hstring]; exact List.mem_cons_self)
      have hiff := hc.rewrite_eq_iff htext hpointer
      rw [encodeEntry_reference href, encodeEntry_reference href, JsonTree.string.injEq]
      by_cases hs : mode = .schema <;> by_cases hs' : mode' = .schema
      · simp [hs, hs']
      · simpa [hs, hs'] using hiff
      · simpa [hs, hs'] using eq_comm.trans hiff
      · simp [hs, hs']
    | none =>
      rw [encodeEntry_other href, encodeEntry_other href]
      exact ih e he hstrings isObject_of_entry isObject_of_entry
  | _ => simp [encodeIn_leaf, agrees]

/-! ## References -/

/-- The value a reference leads to. -/
def evaluate (v : Value) (text : PreparedString) : Option Value :=
  (pointer.tokens? text).bind fun tokens => v.follow index? tokens

/-- The reference of a place in the encoded schema leads to the encoding of a subschema. -/
def Resolves (c : NumericCarrier) (schema : PreparedValue) (path : List PreparedString) (key : PreparedString)
    (sub : PreparedValue) : Prop :=
  ∃ text, (c.encodeSchema schema).follow index? ((path ++ [key]).map c.encodeString) = some (.string text) ∧
    evaluate (c.encodeSchema schema) text = some (c.encodeSchema sub)

/-- The string that stands in the encoded schema for a reference. -/
theorem Carries.follow_reference (hc : Carries c all used) {schema : PreparedValue} (hschema : schema.strings ⊆ all)
    {path : List PreparedString} {m : Mode} {entries : List (PreparedString × PreparedValue)}
    {key text : PreparedString} (hpath : walk mapKeys .schema schema path = some (m, .object entries))
    (hkey : entries.lookup key = some (.string text)) (href : reference? key (.string text) = some text) :
    (c.encodeSchema schema).follow index? ((path ++ [key]).map c.encodeString) =
      some (.string (if m = .schema then c.rewrite text else c.encodeString text)) := by
  have hobject : m = .names → isObject (.object entries) = true := fun _ => rfl
  have hentries : (JsonTree.object entries).strings ⊆ all := fun _ hs => hschema (strings_walk hpath hs)
  have hfollow : (c.encodeSchema schema).follow index? (path.map c.encodeString) =
      some (encodeIn c m (.object entries)) :=
    hc.follow_encodeIn (fun h => by cases h) hschema (fun s h => by cases h) hpath
  rw [List.map_append, JsonTree.follow_append, hfollow, Option.bind_some, List.map_cons, List.map_nil, JsonTree.follow,
    hc.child_encodeIn hobject hentries hkey]
  show some (encodeEntry c m key (.string text)) = _
  rw [encodeEntry_reference href]

/-- Where the tokens of a reference lead in the encoded schema. -/
theorem Carries.evaluate_tokens (hc : Carries c all used) {schema sub : PreparedValue}
    (hschema : schema.strings ⊆ all) {text : PreparedString} (hsub : Subschema schema tokens sub)
    (htext : pointer.tokens? text = some (tokens.map c.encodeString)) :
    evaluate (c.encodeSchema schema) text = some (c.encodeSchema sub) ↔ ∃ m,
      walk mapKeys .schema schema tokens = some (m, sub) ∧ agrees m .schema sub = true := by
  obtain ⟨hwalk, hisSchema⟩ := hsub
  have hstring : ∀ s, sub ≠ .string s := fun s h => by
    subst h
    cases hisSchema
  obtain ⟨m, hm⟩ := walk_maps hwalk mapKeys .schema
  have hfollow : (c.encodeSchema schema).follow index? (tokens.map c.encodeString) = some (encodeIn c m sub) :=
    hc.follow_encodeIn (fun h => by cases h) hschema hstring hm
  have hobject : m = .names → isObject sub = true := fun h =>
    isObject_of_walk (fun h => by cases h) (h ▸ hm)
  have hiff : encodeIn c m sub = encodeIn c .schema sub ↔ agrees m .schema sub = true :=
    hc.encodeIn_eq_iff (fun _ hs => hschema (strings_walk hm hs)) hobject fun h => by cases h
  rw [evaluate, htext, Option.bind_some, hfollow, Option.some.injEq]
  constructor
  · exact fun h => ⟨m, hm, hiff.mp h⟩
  · intro hagrees
    obtain ⟨m', hm', h⟩ := hagrees
    obtain ⟨rfl, -⟩ := Prod.mk.inj (Option.some.inj (hm.symm.trans hm'))
    exact hiff.mpr h

/-- The condition for a reference at a place, to a place: it is rewritten or need not be,
and what it leads to is encoded as a schema. -/
def ReferenceKept (schema : PreparedValue) (path : List PreparedString) (text : PreparedString)
    (tokens : List PreparedString) (sub : PreparedValue) : Prop :=
  ((∃ parent, walk mapKeys .schema schema path = some (.schema, parent)) ∨ asStr text = some text) ∧
    ∃ m, walk mapKeys .schema schema tokens = some (m, sub) ∧ agrees m .schema sub = true

/-- When a reference leads to the encoding of the subschema it led to. -/
theorem Carries.resolves_iff (hc : Carries c all used) {schema sub : PreparedValue} (hschema : schema.strings ⊆ all)
    {path tokens : List PreparedString} {key text : PreparedString} (href : IsReference schema path key text)
    (htokens : pointer.tokens? text = some tokens) (hsub : Subschema schema tokens sub) :
    Resolves c schema path key sub ↔ ReferenceKept schema path text tokens sub := by
  obtain ⟨entries, ⟨hpath, -⟩, hkey, hreference⟩ := href
  obtain ⟨m, hm⟩ := walk_maps hpath mapKeys .schema
  have hsegments : segments text = tokens := pointer.map_decode_rawTokens htokens
  have hpointer := (reference?_eq_some hreference).2
  have hresolves : Resolves c schema path key sub ↔ evaluate (c.encodeSchema schema)
      (if m = .schema then c.rewrite text else c.encodeString text) = some (c.encodeSchema sub) := by
    rw [Resolves, hc.follow_reference hschema hm hkey hreference]
    simp only [Option.some.injEq, JsonTree.string.injEq, exists_eq_left']
  have hplace : (∃ parent, walk mapKeys .schema schema path = some (.schema, parent)) ↔ m = .schema := by
    rw [hm]
    simp
  rw [hresolves, ReferenceKept, hplace]
  by_cases hmode : m = .schema
  · have hrewritten : pointer.tokens? (c.rewrite text) = some (tokens.map c.encodeString) := by
      rw [NumericCarrier.rewrite, pointer.tokens?_text, hsegments]
      simpa [segments] using pointer.rawTokens_ne_nil text
    rw [if_pos hmode, and_iff_right (.inl hmode)]
    exact hc.evaluate_tokens hschema hsub hrewritten
  · rw [if_neg hmode]
    cases asStr_cases text with
    | inl htext =>
      have hsame : tokens.map c.encodeString = tokens := by
        rw [← hsegments]
        exact (List.map_congr_left fun segment hsegment =>
          encodeString_of_asStr (asStr_of_mem_segments hpointer htext hsegment)).trans (List.map_id _)
      rw [encodeString_of_asStr htext, and_iff_right (.inr htext)]
      exact hc.evaluate_tokens hschema hsub (by rw [htokens, hsame])
    | inr hnone =>
      have hmem : text ∈ all := hschema (strings_walk hpath
        (JsonTree.strings_subset_of_entry (GraphCopy.mem_of_lookup hkey) List.mem_cons_self))
      obtain ⟨i, hi⟩ := hc.encodeString_tag hmem hnone
      rw [hi, evaluate, tokens?_tagText, Option.bind_none, hnone]
      simp [hmode]

end

end MinionAgent.PreparedValidation
