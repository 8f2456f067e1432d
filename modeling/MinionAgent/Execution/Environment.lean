import MinionAgent.Library.FiniteMap
import MinionAgent.Library.Surrogates

/-!
# MinionAgent.Execution.Environment

The environment of the process and the local provider's snapshot of it, in
Python (`execution/environment.py`) and in Rust (`execution/environment.rs`,
`LocalSubprocess` of `execution/subprocess.rs`).

* `NativeEnv` — the process environment that the platform holds;
* `baseEnv`, `rustBaseEnv` — the snapshots of both local providers;
* `lossless_baseEnv_iff` — the Python one holds every entry unless a name
  begins with `=`;
* `rustBaseEnv_isSome_iff`, `lossless_rustBaseEnv` — the Rust one is there just
  when every name and value is valid Unicode, and holds every entry then.
-/

namespace MinionAgent

open Rfc8259 (CodePoint codePoint)

/-- A Python string: code points, surrogates among them. -/
abbrev PyText : Type := List CodePoint

namespace Environment

/-- `Platform`. -/
inductive Platform
  | windows
  | posix
  deriving DecidableEq

/-- `=`, as a unit. -/
def equalsSign : UInt16 := 0x3D

/-- `=`, as a byte. -/
def equalsByte : UInt8 := 0x3D

/-- A native process environment: bytes on POSIX; UTF-16 units on Windows, where
NUL ends an entry.  An entry is the name, `=` and the value, so that a name has
a `=` at its beginning at most. -/
inductive NativeEnv
  | posix (entries : List (List UInt8 × List UInt8)) (distinct : (entries.map Prod.fst).Nodup)
      (named : ∀ e ∈ entries, e.1 ≠ [] ∧ equalsByte ∉ e.1.tail)
  | windows (entries : List (List UInt16 × List UInt16)) (distinct : (entries.map Prod.fst).Nodup)
      (named : ∀ e ∈ entries, e.1 ≠ [] ∧ equalsSign ∉ e.1.tail) (nonNul : ∀ e ∈ entries, 0 ∉ e.1 ∧ 0 ∉ e.2)

/-- `GetEnvironmentStringsW`: each entry with a NUL after it, and one NUL more. -/
def block (entries : List (List UInt16 × List UInt16)) : List UInt16 :=
  entries.flatMap (fun e => e.1 ++ equalsSign :: e.2 ++ [0]) ++ [0]

/-- Every name and every value is valid Unicode. -/
def NativeEnv.Unicode : NativeEnv → Prop
  | posix entries .. => ∀ e ∈ entries, (decodeStrict e.1).isSome ∧ (decodeStrict e.2).isSome
  | windows entries .. => ∀ e ∈ entries, (scalars? (decode16 e.1)).isSome ∧ (scalars? (decode16 e.2)).isSome

/-- No name begins with `=`, as the per-drive records of Windows do. -/
def NativeEnv.Variables : NativeEnv → Prop
  | posix entries .. => ∀ e ∈ entries, e.1.head? ≠ some equalsByte
  | windows entries .. => ∀ e ∈ entries, e.1.head? ≠ some equalsSign

/-! ## Python -/

/-- `EnvSnapshot`. -/
structure EnvSnapshot where
  entries : List (PyText × PyText)
  platform : Platform

/-- `text.partition("=")`, without the separator. -/
def partitionEquals (text : PyText) : PyText × PyText :=
  (text.takeWhile (· != codePoint 0x3D), (text.dropWhile (· != codePoint 0x3D)).tail)

/-- `native_windows_environment`, from the block on. -/
def nativeWindowsEnvironment (block : List UInt16) : List (PyText × PyText) :=
  if _h : block.takeWhile (· != 0) = [] then []
  else
    let text := decode16 (block.takeWhile (· != 0))
    let entries := nativeWindowsEnvironment (block.drop ((block.takeWhile (· != 0)).length + 1))
    if text.head? = some (codePoint 0x3D) then entries else partitionEquals text :: entries
termination_by block.length
decreasing_by
  have hne : block ≠ [] := by
    rintro rfl
    exact _h rfl
  have hpos := List.length_pos_iff.mpr hne
  rw [List.length_drop]
  omega

/-- An entry of `environ`, split at its first `=`. -/
def splitEntry (entry : List UInt8) : List UInt8 × List UInt8 :=
  (entry.takeWhile (· != equalsByte), (entry.dropWhile (· != equalsByte)).tail)

/-- `setdefault`. -/
def setDefault (environ : List (List UInt8 × List UInt8)) (e : List UInt8 × List UInt8) :
    List (List UInt8 × List UInt8) :=
  if e.1 ∈ environ.map Prod.fst then environ else environ ++ [e]

/-- The items of `os.environ` before they are decoded: Python splits an entry
at its first `=`, also where the name begins with it. -/
def posixEnviron (entries : List (List UInt8 × List UInt8)) : List (List UInt8 × List UInt8) :=
  (entries.map fun e => splitEntry (e.1 ++ equalsByte :: e.2)).foldl setDefault []

/-- `local_baseline`. -/
def localBaseline : NativeEnv → List (PyText × PyText)
  | .posix entries .. => (posixEnviron entries).map fun e => (fsdecode e.1, fsdecode e.2)
  | .windows entries .. => nativeWindowsEnvironment (block entries)

/-- The platform of the host. -/
def NativeEnv.platform : NativeEnv → Platform
  | posix .. => .posix
  | windows .. => .windows

/-- `LocalSubprocess.base_env`. -/
def baseEnv (env : NativeEnv) : EnvSnapshot := { entries := localBaseline env, platform := env.platform }

/-- The entries of a snapshot are the native ones. -/
def EnvSnapshot.Lossless (snapshot : EnvSnapshot) : NativeEnv → Prop
  | .posix entries .. =>
    snapshot.platform = .posix ∧
      snapshot.entries.map (fun e => (fsencode e.1, fsencode e.2)) = entries.map fun e => (some e.1, some e.2)
  | .windows entries .. =>
    snapshot.platform = .windows ∧ snapshot.entries.map (fun e => (Utf16.toUnits e.1, Utf16.toUnits e.2)) = entries

theorem decode16_head? {units : List UInt16} : (decode16 units).head? = some (codePoint 0x3D) ↔
    units.head? = some equalsSign := by
  have heq {unit : UInt16} : codePoint unit.toNat = codePoint 0x3D ↔ unit = equalsSign := by
    have hlt := unit.toNat_lt
    refine ⟨fun h => UInt16.toNat_inj.mp ?_, fun h => h ▸ rfl⟩
    have hval := congrArg Fin.val h
    rwa [codePoint_val (by omega), codePoint_val (by decide)] at hval
  match units with
  | [] => simp [decode16]
  | [unit] => simp [decode16, heq]
  | unit :: next :: units =>
    rw [decode16]
    split
    · next hpair =>
      simp only [isPair, Bool.and_eq_true, decide_eq_true_eq] at hpair
      have hunit : unit ≠ equalsSign := by
        rintro rfl
        exact absurd hpair.1.1.1 (by decide)
      have hcode : codePoint (0x10000 + (unit.toNat - 0xD800) * 0x400 + (next.toNat - 0xDC00)) ≠ codePoint 0x3D := by
        intro h
        have hval := congrArg Fin.val h
        rw [codePoint_val (by omega), codePoint_val (by decide)] at hval
        omega
      simp [hunit, hcode]
    · simp [heq]

theorem equals_mem_decode16 {units : List UInt16} (h : codePoint 0x3D ∈ decode16 units) : equalsSign ∈ units := by
  have hunits : Utf16.unitsOf (codePoint 0x3D) = [equalsSign] := by decide
  have hmem : equalsSign ∈ Utf16.toUnits (decode16 units) :=
    List.mem_flatMap.mpr ⟨_, h, hunits ▸ List.mem_singleton.mpr rfl⟩
  rwa [toUnits_decode16] at hmem

/-- A name without `=` and a value are what the entry is parted in. -/
theorem partitionEquals_decode16 {name : List UInt16} (hname : equalsSign ∉ name) (value : List UInt16) :
    partitionEquals (decode16 (name ++ equalsSign :: value)) = (decode16 name, decode16 value) := by
  have hall : ∀ c ∈ decode16 name, (c != codePoint 0x3D) = true := by
    intro c hc
    refine bne_iff_ne.mpr ?_
    rintro rfl
    exact hname (equals_mem_decode16 hc)
  rw [decode16_append name (by decide), partitionEquals, List.takeWhile_append_of_pos hall,
    List.dropWhile_append_of_pos hall]
  have hequals : codePoint equalsSign.toNat = codePoint 0x3D := rfl
  simp [hequals]

/-- The walk over the block leaves out what begins with `=`. -/
theorem nativeWindowsEnvironment_block {entries : List (List UInt16 × List UInt16)}
    (hnamed : ∀ e ∈ entries, e.1 ≠ [] ∧ equalsSign ∉ e.1.tail) (hnul : ∀ e ∈ entries, 0 ∉ e.1 ∧ 0 ∉ e.2) :
    nativeWindowsEnvironment (block entries) =
      (entries.filter (fun e => e.1.head? != some equalsSign)).map fun e => (decode16 e.1, decode16 e.2) := by
  induction entries with
  | nil =>
    rw [nativeWindowsEnvironment]
    rfl
  | cons e entries ih =>
    obtain ⟨name, value⟩ := e
    obtain ⟨hne, htail⟩ := hnamed _ (List.mem_cons_self ..)
    obtain ⟨hname, hvalue⟩ := hnul _ (List.mem_cons_self ..)
    have hrest := ih (fun e he => hnamed e (List.mem_cons_of_mem _ he)) fun e he => hnul e (List.mem_cons_of_mem _ he)
    have hblock : block ((name, value) :: entries) = (name ++ equalsSign :: value) ++ 0 :: block entries := by
      simp [block]
    have hnonNul : ∀ u ∈ name ++ equalsSign :: value, (u != 0) = true := by
      intro u hu
      refine bne_iff_ne.mpr ?_
      rintro rfl
      rcases List.mem_append.mp hu with hu | hu
      · exact hname hu
      · rcases List.mem_cons.mp hu with hu | hu
        · exact absurd hu (by decide)
        · exact hvalue hu
    have htake : (block ((name, value) :: entries)).takeWhile (· != 0) = name ++ equalsSign :: value := by
      rw [hblock, List.takeWhile_append_of_pos hnonNul]
      simp
    have hdrop : (block ((name, value) :: entries)).drop ((name ++ equalsSign :: value).length + 1) =
        block entries := by
      rw [hblock, List.drop_append]
      simp
    have hhead : (name ++ equalsSign :: value).head? = name.head? := by
      obtain ⟨first, rest, rfl⟩ := List.exists_cons_of_ne_nil hne
      rfl
    rw [nativeWindowsEnvironment, dif_neg (by rw [htake]; simp), htake, hdrop, hrest]
    simp only [decode16_head?, hhead]
    by_cases hequals : name.head? = some equalsSign
    · simp [hequals]
    · have hfree : equalsSign ∉ name := by
        obtain ⟨first, rest, rfl⟩ := List.exists_cons_of_ne_nil hne
        have hfirst : first ≠ equalsSign := by simpa using hequals
        simpa [Ne.symm hfirst] using htail
      simp [hequals, partitionEquals_decode16 hfree]

/-- A name without `=` and a value are what the entry is split in. -/
theorem splitEntry_append {name : List UInt8} (hname : equalsByte ∉ name) (value : List UInt8) :
    splitEntry (name ++ equalsByte :: value) = (name, value) := by
  have hall : ∀ b ∈ name, (b != equalsByte) = true := by
    rintro b hb
    refine bne_iff_ne.mpr ?_
    rintro rfl
    exact hname hb
  rw [splitEntry, List.takeWhile_append_of_pos hall, List.dropWhile_append_of_pos hall]
  simp

/-- Items with distinct names stay as they are. -/
theorem foldl_setDefault {entries environ : List (List UInt8 × List UInt8)}
    (h : ((environ ++ entries).map Prod.fst).Nodup) : entries.foldl setDefault environ = environ ++ entries := by
  induction entries generalizing environ with
  | nil => simp
  | cons e entries ih =>
    have hnew : e.1 ∉ environ.map Prod.fst := by
      rw [List.map_append, List.nodup_append] at h
      exact fun hmem => h.2.2 e.1 hmem e.1 (by simp) rfl
    rw [List.foldl_cons, setDefault, if_neg hnew, ih (by simpa using h), List.append_assoc, List.singleton_append]

theorem mem_foldl_setDefault {entries environ : List (List UInt8 × List UInt8)} {e : List UInt8 × List UInt8}
    (h : e ∈ entries.foldl setDefault environ) : e ∈ environ ∨ e ∈ entries := by
  induction entries generalizing environ with
  | nil => exact .inl h
  | cons first entries ih =>
    rcases ih h with h | h
    · rw [setDefault] at h
      split at h
      · exact .inl h
      · rcases List.mem_append.mp h with h | h
        · exact .inl h
        · exact .inr (List.mem_singleton.mp h ▸ List.mem_cons_self ..)
    · exact .inr (List.mem_cons_of_mem _ h)

/-- No name that Python has holds a `=`. -/
theorem equals_not_mem_posixEnviron {entries : List (List UInt8 × List UInt8)} {e : List UInt8 × List UInt8}
    (h : e ∈ posixEnviron entries) : equalsByte ∉ e.1 := by
  rcases mem_foldl_setDefault h with h | h
  · cases h
  · obtain ⟨entry, -, rfl⟩ := List.mem_map.mp h
    intro hmem
    simpa using List.mem_takeWhile_imp hmem

/-- Python has the native items just when no name begins with `=`. -/
theorem posixEnviron_eq_iff {entries : List (List UInt8 × List UInt8)} (hdistinct : (entries.map Prod.fst).Nodup)
    (hnamed : ∀ e ∈ entries, e.1 ≠ [] ∧ equalsByte ∉ e.1.tail) :
    posixEnviron entries = entries ↔ ∀ e ∈ entries, e.1.head? ≠ some equalsByte := by
  constructor
  · intro heq e he hhead
    refine equals_not_mem_posixEnviron (heq.symm ▸ he) (List.mem_of_mem_head? hhead)
  · intro hhead
    have hsplit : (entries.map fun e => splitEntry (e.1 ++ equalsByte :: e.2)) = entries := by
      refine (List.map_congr_left fun e he => ?_).trans entries.map_id
      obtain ⟨name, value⟩ := e
      obtain ⟨hne, htail⟩ := hnamed _ he
      obtain ⟨first, rest, rfl⟩ := List.exists_cons_of_ne_nil hne
      have hfirst : first ≠ equalsByte := by simpa using hhead _ he
      exact splitEntry_append (by simpa [Ne.symm hfirst] using htail) value
    rw [posixEnviron, hsplit]
    exact foldl_setDefault (by simpa using hdistinct)

/-- The Python snapshot holds every entry unless a name begins with `=`. -/
theorem lossless_baseEnv_iff (env : NativeEnv) : (baseEnv env).Lossless env ↔ env.Variables := by
  cases env with
  | posix entries distinct named =>
    rw [NativeEnv.Variables, ← posixEnviron_eq_iff distinct named]
    have hinjective : Function.Injective fun e : List UInt8 × List UInt8 => (some e.1, some e.2) := by
      rintro ⟨name, value⟩ ⟨name', value'⟩ h
      simpa using h
    simp only [EnvSnapshot.Lossless, baseEnv, localBaseline, NativeEnv.platform, List.map_map, Function.comp_def,
      fsencode_fsdecode, true_and]
    exact hinjective.list_map.eq_iff
  | windows entries distinct named nonNul =>
    have hmap : ((entries.filter (fun e => e.1.head? != some equalsSign)).map fun e => (decode16 e.1, decode16 e.2)).map
        (fun e => (Utf16.toUnits e.1, Utf16.toUnits e.2)) = entries.filter (fun e => e.1.head? != some equalsSign) := by
      simp [Function.comp_def, toUnits_decode16]
    simp only [EnvSnapshot.Lossless, baseEnv, localBaseline, NativeEnv.platform,
      nativeWindowsEnvironment_block named nonNul, hmap, true_and, List.filter_eq_self, NativeEnv.Variables,
      bne_iff_ne]

/-! ## Rust -/

/-- `EnvEntries`, the entries of an `EnvSnapshot`. -/
inductive EnvEntries
  | posix (entries : List (List UInt8 × List UInt8))
  | windows (entries : List (List UInt16 × List UInt16))

/-- The units of a `String`. -/
def encodeUtf16 (text : List Char) : List UInt16 := Utf16.toUnits (text.map codePointOf)

/-- The texts of an entry. -/
def decodeEntry {α : Type} (decode : α → Option (List Char)) (e : α × α) : Option (List Char × List Char) :=
  (decode e.1).bind fun name => (decode e.2).map (name, ·)

/-- `std::env::vars`, which splits an entry at the first `=` behind its first
byte, and panics on one that is not valid Unicode. -/
def vars : NativeEnv → Option (List (List Char × List Char))
  | .posix entries .. => entries.mapM (decodeEntry decodeStrict)
  | .windows entries .. => entries.mapM (decodeEntry fun units => scalars? (decode16 units))

/-- A `String` as the number of its bytes, by which a `BTreeMap` orders it. -/
def utf8Key (text : List Char) : List Nat := (encodeUtf8 text).map UInt8.toNat

/-- The iteration over a `BTreeMap`. -/
def iter (map : FiniteMap (List Char) (List Char)) : List (List Char × List Char) :=
  FiniteMap.sortBy (fun p => utf8Key p.1) map.items

/-- `EnvSnapshot::configured`. -/
def configured (platform : Platform) (map : FiniteMap (List Char) (List Char)) : EnvEntries :=
  match platform with
  | .windows => .windows ((iter map).map fun p => (encodeUtf16 p.1, encodeUtf16 p.2))
  | .posix => .posix ((iter map).map fun p => (encodeUtf8 p.1, encodeUtf8 p.2))

/-- `LocalSubprocess::with_world`, the map it collects. -/
def withWorld (env : NativeEnv) : Option (FiniteMap (List Char) (List Char)) := (vars env).map (FiniteMap.update ∅)

/-- `LocalSubprocess::base_env`, of a provider that was made. -/
def rustBaseEnv (env : NativeEnv) : Option EnvEntries := (withWorld env).map (configured env.platform)

/-- The entries are the native ones, in any order. -/
def EnvEntries.Lossless (snapshot : EnvEntries) : NativeEnv → Prop
  | .posix entries .. => ∃ held, snapshot = .posix held ∧ held.Perm entries
  | .windows entries .. => ∃ held, snapshot = .windows held ∧ held.Perm entries

/-- Entries that are all decoded are those of the texts. -/
theorem eq_of_mapM {α : Type} {decode : α → Option (List Char)} {encode : List Char → α}
    (h : ∀ a text, decode a = some text → a = encode text) {entries : List (α × α)}
    {pairs : List (List Char × List Char)} (hpairs : entries.mapM (decodeEntry decode) = some pairs) :
    entries = pairs.map fun p => (encode p.1, encode p.2) := by
  induction entries generalizing pairs with
  | nil =>
    obtain rfl := Option.some.inj hpairs
    rfl
  | cons e entries ih =>
    rw [List.mapM_cons] at hpairs
    simp only [Option.bind_eq_bind, Option.bind_eq_some_iff, Option.pure_def, Option.some.injEq] at hpairs
    obtain ⟨p, hp, rest, hrest, rfl⟩ := hpairs
    obtain ⟨name, hname, hpair⟩ := Option.bind_eq_some_iff.mp hp
    obtain ⟨value, hvalue, rfl⟩ := Option.map_eq_some_iff.mp hpair
    rw [List.map_cons, ← ih hrest, ← h _ _ hname, ← h _ _ hvalue]

theorem decodeEntry_isSome {α : Type} {decode : α → Option (List Char)} {e : α × α} :
    (decodeEntry decode e).isSome ↔ (decode e.1).isSome ∧ (decode e.2).isSome := by
  unfold decodeEntry
  cases decode e.1 <;> cases decode e.2 <;> simp

theorem mapM_isSome_iff {α : Type} {decode : α → Option (List Char)} {entries : List (α × α)} :
    (entries.mapM (decodeEntry decode)).isSome ↔ ∀ e ∈ entries, (decode e.1).isSome ∧ (decode e.2).isSome := by
  induction entries with
  | nil => simp
  | cons e entries ih =>
    rw [List.forall_mem_cons, ← ih, List.mapM_cons, ← decodeEntry_isSome]
    cases decodeEntry decode e with
    | none => simp
    | some p => cases entries.mapM (decodeEntry decode) <;> simp

/-- A map that is made of texts with distinct names holds them all. -/
theorem iter_update_perm {α : Type} {encode : List Char → α} {entries : List (α × α)}
    {pairs : List (List Char × List Char)} (hpairs : entries = pairs.map fun p => (encode p.1, encode p.2))
    (hdistinct : (entries.map Prod.fst).Nodup) :
    ((iter (FiniteMap.update ∅ pairs)).map fun p => (encode p.1, encode p.2)).Perm entries := by
  have hnodup : (pairs.map Prod.fst).Nodup := by
    rw [hpairs, List.map_map] at hdistinct
    refine List.Nodup.of_map encode ?_
    rwa [List.map_map]
  have hitems := FiniteMap.items_update_perm hnodup ∅ fun p _ => AList.notMem_empty p.1
  rw [show FiniteMap.items (∅ : FiniteMap (List Char) (List Char)) = [] from rfl, List.append_nil] at hitems
  rw [hpairs]
  exact ((FiniteMap.sortBy_perm _ _).trans hitems).map _

/-- The Rust provider can be made just when every name and value is valid
Unicode. -/
theorem rustBaseEnv_isSome_iff (env : NativeEnv) : (rustBaseEnv env).isSome ↔ env.Unicode := by
  rw [rustBaseEnv, withWorld, Option.isSome_map, Option.isSome_map]
  cases env with
  | posix entries distinct named => exact mapM_isSome_iff
  | windows entries distinct named nonNul => exact @mapM_isSome_iff _ (fun units => scalars? (decode16 units)) entries

/-- The snapshot of a Rust provider holds every entry. -/
theorem lossless_rustBaseEnv {env : NativeEnv} {snapshot : EnvEntries} (h : rustBaseEnv env = some snapshot) :
    snapshot.Lossless env := by
  obtain ⟨map, hmap, rfl⟩ := Option.map_eq_some_iff.mp h
  obtain ⟨pairs, hvars, rfl⟩ := Option.map_eq_some_iff.mp hmap
  cases env with
  | posix entries distinct named =>
    have hpairs := eq_of_mapM (fun a text => (@decodeStrict_eq_some a text).mp) hvars
    exact ⟨_, rfl, iter_update_perm hpairs distinct⟩
  | windows entries distinct named nonNul =>
    have hpairs := @eq_of_mapM _ (fun units => scalars? (decode16 units)) encodeUtf16
      (fun a text => (@scalars?_decode16 a text).mp) _ _ hvars
    exact ⟨_, rfl, iter_update_perm hpairs distinct⟩

end Environment

end MinionAgent
