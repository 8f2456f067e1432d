import MinionAgent.Execution.PathText

/-!
# MinionAgent.Execution.PosixPath

Joining and resolving on POSIX, in `execution/filesystem.py` on `posixpath` and in
`execution/path.rs`.

* `resolveLocalPath`, `joinPath`, `normpath` — the one;
* `resolveLogical`, `join`, `normalize` — the other;
* `normpath_absolute` — exactly two slashes at the front are kept;
* `posix_agree_iff` — resolving agrees, and joining where the joined text does not
  begin with exactly two slashes.
-/

namespace MinionAgent.PosixPath

open Rfc8259 (CodePoint)
open PathStack (push up eval Plain components text)
open PathResolve

/-- A path, in code points. -/
abbrev Text := List CodePoint

/-! ## `posixpath` -/

/-- The slash. -/
def slashPoint : CodePoint := point 47

/-- `os.path.isabs`. -/
def isabs (path : Text) : Bool := path.head? == some slashPoint

/-- `os.path.join` of two paths. -/
def osJoin (a b : Text) : Text :=
  if isabs b then b else if a = [] ∨ a.getLast? = some slashPoint then a ++ b else a ++ slashPoint :: b

/-- How many slashes `normpath` keeps at the front: one or two, and one of three or more. -/
def initialSlashes (path : Text) : Nat :=
  if [slashPoint, slashPoint].isPrefixOf path && !(List.isPrefixOf [slashPoint, slashPoint, slashPoint] path) then 2
  else if isabs path then 1 else 0

/-- One component of `normpath`; the last of `new_comps` is the head. -/
def normComp (initial : Nat) (newComps : List Text) (comp : Text) : List Text :=
  if comp = [] ∨ comp = [point 46] then newComps
  else if comp ≠ [point 46, point 46] ∨ (initial = 0 ∧ newComps = []) ∨
      newComps.head? = some [point 46, point 46] then
    comp :: newComps
  else newComps.tail

/-- `os.path.normpath`. -/
def normpath (path : Text) : Text :=
  if path = [] then [point 46]
  else
    let initial := initialSlashes path
    let comps := ((path.splitOnP (· == slashPoint)).foldl (normComp initial) []).reverse
    let path := List.replicate initial slashPoint ++ text slashPoint comps
    if path = [] then [point 46] else path

/-! ## The Python paths -/

/-- `node_posix_single_root`. -/
def nodePosixSingleRoot (path : Text) : Text :=
  if [slashPoint, slashPoint].isPrefixOf path then slashPoint :: path.dropWhile (· == slashPoint) else path

/-- `file://`. -/
def fileScheme : PathUnits := [102, 105, 108, 101, 58, 47, 47]

/-- The path without `~` and `file://`; the home directory and the path of a file URL are given. -/
def expandedText (home : Text) (fileUrlToPath : Text → Option Text) (path : Text) : Text :=
  if path = [point 126] then home
  else if [point 126, slashPoint].isPrefixOf path then osJoin home (path.drop 2)
  else if (fileScheme.map point).isPrefixOf path then (fileUrlToPath path).getD path
  else path

/-- `_resolve_local_path`, on POSIX. -/
def resolveLocalPath (home : Text) (fileUrlToPath : Text → Option Text) (cwd path : Text) : Text :=
  let normalized := expandedText home fileUrlToPath path
  if isabs normalized then nodePosixSingleRoot (normpath normalized)
  else nodePosixSingleRoot (normpath (osJoin cwd normalized))

/-- `LocalFileSystem.join_path`. -/
def joinPath (parts : List Text) : Text :=
  if parts = [] then [point 46] else normpath (text slashPoint (parts.filter (· ≠ [])))

/-! ## The Rust paths -/

/-- Where the share of a UNC path ends: at the second separator behind its first two. -/
def uncEnd (units : PathUnits) : Nat :=
  match ((units.drop 2).zipIdx.filter fun u => sep u.1 true)[1]? with
  | some (_, index) => index + 2
  | none => units.length

/-- The prefix of `normalize`, the rest behind it, and whether it is a root. -/
def prefixOf (units : PathUnits) (windows : Bool) : PathUnits × PathUnits × Bool :=
  if windows && units[1]? == some 58 then (units.take 2, units.drop 2, false)
  else if windows && decide (units.length > 2) && (units.take 2).all (sep · true) then
    ((units.take (uncEnd units)).map fun u => if sep u windows then 92 else u, units.drop (uncEnd units), true)
  else ([], units, false)

/-- One component behind what is written. -/
def appendComponent (windows root : Bool) (output : PathUnits) (component : PathUnits × Nat) : PathUnits :=
  if output ≠ [] ∧ output.getLast? ≠ some (slash windows) ∧
      ¬(component.2 = 0 ∧ ¬root ∧ windows ∧ output.length = 2 ∧ output[1]? = some 58) then
    output ++ slash windows :: component.1
  else output ++ component.1

/-- `normalize`. -/
def normalize (units : PathUnits) (windows : Bool) : PathUnits :=
  let (front, rest, rooted) := prefixOf units windows
  let root := rooted || rest.head?.any (sep · windows)
  let cs := eval 46 (!root) (components (sep · windows) rest)
  let output := cs.zipIdx.foldl (appendComponent windows root) (front ++ if root then [slash windows] else [])
  if output = [] then [46] else output

/-- `join`. -/
def join (parts : List PathUnits) (windows : Bool) : PathUnits :=
  normalize
    (parts.foldl (fun joined part =>
      if part = [] then joined
      else (if joined ≠ [] then joined ++ [slash windows] else joined) ++ part) [])
    windows

variable {ε : Type}

/-- The path without `~` and `file://`; the home directory, where it is known, and the
path of a file URL are given. -/
def expanded (home : Option PathUnits) (fileUrlToPath : PathUnits → Option PathUnits) (windows : Bool)
    (raw : PathUnits) : PathUnits :=
  if fileScheme.isPrefixOf raw then (fileUrlToPath raw).getD raw
  else if raw = [126] || [126, 47].isPrefixOf raw || (windows && [126, 92].isPrefixOf raw) then
    home.elim raw fun home => join [home, raw.drop 2] windows
  else raw

/-- `resolve_logical_with_inputs`. -/
def resolveLogical (home : Option PathUnits) (fileUrlToPath : PathUnits → Option PathUnits) (windows : Bool)
    (lower : PathUnits → PathUnits) (host : Host PathUnits ε) (cwd raw : PathUnits) :
    List (Consulted PathUnits) × Except ε PathUnits :=
  let expanded := expanded home fileUrlToPath windows raw
  let parts := if isAbsolute expanded windows then [expanded] else [cwd, expanded]
  resolve parts windows lower host

/-! ## Normalization -/

theorem beq_slashPoint (c : CodePoint) : (c == slashPoint) = sepPoint false c := by
  rw [sepPoint, slashPoint, Bool.false_and, Bool.or_false]

/-- `normpath` evaluates components; above a root it keeps no `..`. -/
theorem foldl_normComp {initial : Nat} (comps : List Text) {stack : List Text}
    (h : initial ≠ 0 → ∀ c ∈ stack, Plain (point 46) c) :
    comps.foldl (normComp initial) stack = comps.foldl (push (point 46) (initial == 0)) stack := by
  induction comps generalizing stack with
  | nil => rfl
  | cons c comps ih =>
    have hstep : normComp initial stack c = push (point 46) (initial == 0) stack c := by
      rw [normComp, push]
      by_cases hskip : c = [] ∨ c = [point 46]
      · rw [if_pos hskip, if_pos hskip]
      · rw [if_neg hskip, if_neg hskip]
        by_cases hdots : c = [point 46, point 46]
        · subst hdots
          rw [if_pos rfl]
          cases stack with
          | nil => by_cases hinitial : initial = 0 <;> simp [up, hinitial]
          | cons top below =>
            by_cases htop : top = [point 46, point 46]
            · have hinitial : initial = 0 := by
                by_contra hne
                exact (h hne top List.mem_cons_self).2.2 htop
              simp [up, htop, hinitial]
            · simp [up, htop]
        · rw [if_neg hdots, if_pos (.inl hdots)]
    rw [List.foldl_cons, List.foldl_cons, hstep, ih]
    intro hinitial
    rw [beq_eq_false_iff_ne.mpr hinitial]
    exact PathStack.push_plain (h hinitial) c

/-- Where something stands that is not closed by a slash, components follow with one slash each. -/
theorem foldl_appendComponent {cs : List PathUnits} (h : ∀ c ∈ cs, c ≠ [] ∧ ∀ unit ∈ c, sep unit false = false)
    (root : Bool) {output : PathUnits} (hne : output ≠ []) (hlast : output.getLast? ≠ some 47) (index : Nat) :
    (cs.zipIdx index).foldl (appendComponent false root) output = output ++ cs.flatMap (47 :: ·) := by
  induction cs generalizing output index with
  | nil => simp
  | cons c cs ih =>
    obtain ⟨hc, hsep⟩ := h c List.mem_cons_self
    have hstep : appendComponent false root output (c, index) = output ++ 47 :: c := by
      rw [appendComponent, if_pos ⟨hne, hlast, by simp⟩]
      rfl
    have hlast' : (output ++ 47 :: c).getLast? ≠ some 47 := by
      intro hslash
      have hmem : (47 : UInt16) ∈ c := by
        rw [List.getLast?_append_of_ne_nil _ (by simp), List.getLast?_cons] at hslash
        cases hlast : c.getLast? with
        | none => exact absurd (List.getLast?_eq_none_iff.mp hlast) hc
        | some unit =>
          rw [hlast] at hslash
          obtain rfl : unit = 47 := by simpa using hslash
          exact List.mem_of_getLast? hlast
      exact absurd (hsep 47 hmem) (by decide)
    rw [List.zipIdx_cons, List.foldl_cons, hstep, ih (fun d hd => h d (List.mem_cons_of_mem _ hd)) (by simp) hlast']
    simp

theorem text_eq_flatMap (c : PathUnits) (cs : List PathUnits) : text 47 (c :: cs) = c ++ cs.flatMap (47 :: ·) := by
  induction cs generalizing c with
  | nil => simp
  | cons d cs ih =>
    rw [PathStack.text_cons (by simp), ih, List.flatMap_cons]
    rfl

theorem foldl_appendComponent_front {cs : List PathUnits}
    (h : ∀ c ∈ cs, c ≠ [] ∧ ∀ unit ∈ c, sep unit false = false) (root : Bool) {front : PathUnits}
    (hfront : front = [] ∨ front = [47]) :
    cs.zipIdx.foldl (appendComponent false root) front = front ++ text 47 cs := by
  cases cs with
  | nil => simp
  | cons c cs =>
    obtain ⟨hc, hsep⟩ := h c List.mem_cons_self
    have hstep : appendComponent false root front (c, 0) = front ++ c := by
      rw [appendComponent, if_neg]
      rintro ⟨hne, hlast, -⟩
      cases hfront with
      | inl hnil => exact hne hnil
      | inr hslash => exact hlast (hslash ▸ rfl)
    have hlast : (front ++ c).getLast? ≠ some 47 := by
      rw [List.getLast?_append_of_ne_nil _ hc]
      intro hslash
      exact absurd (hsep 47 (List.mem_of_getLast? hslash)) (by decide)
    rw [List.zipIdx_cons, List.foldl_cons, hstep,
      foldl_appendComponent (fun d hd => h d (List.mem_cons_of_mem _ hd)) root (by simp [hc]) hlast, text_eq_flatMap,
      List.append_assoc]

/-- A normalized POSIX path. -/
theorem normalize_posix (units : PathUnits) :
    normalize units false =
      let output := (if isAbsolute units false then [47] else []) ++
        text 47 (eval 46 (!isAbsolute units false) (components (sep · false) units))
      if output = [] then [46] else output := by
  have hroot : (false || units.head?.any (sep · false)) = isAbsolute units false := by
    cases units with
    | nil => rfl
    | cons unit units => simp [isAbsolute, sep]
  have hcs : ∀ c ∈ eval 46 (!isAbsolute units false) (components (sep · false) units),
      c ≠ [] ∧ ∀ unit ∈ c, sep unit false = false := by
    intro c hc
    obtain ⟨hmem, hne⟩ := PathStack.mem_of_mem_eval hc
    exact ⟨hne, PathStack.not_sep_of_mem_components hmem⟩
  rw [normalize]
  simp only [prefixOf, Bool.false_and, Bool.false_eq_true, if_false, hroot, List.nil_append, slash]
  rw [foldl_appendComponent_front hcs]
  cases isAbsolute units false
  · exact .inl rfl
  · exact .inr rfl

theorem foldl_joined (parts : List PathUnits) {joined : PathUnits} (h : joined ≠ []) :
    parts.foldl (fun joined part =>
      if part = [] then joined
      else (if joined ≠ [] then joined ++ [slash false] else joined) ++ part) joined =
        joined ++ (parts.filter (· ≠ [])).flatMap (47 :: ·) := by
  induction parts generalizing joined with
  | nil => simp
  | cons part parts ih =>
    rw [List.foldl_cons]
    by_cases hpart : part = []
    · rw [if_pos hpart, ih h, List.filter_cons_of_neg (by simp [hpart])]
    · rw [if_neg hpart, if_pos h, ih (by simp [h]), List.filter_cons_of_pos (by simp [hpart]), List.flatMap_cons]
      simp [slash]

/-- `join` normalizes the parts that are not empty, one slash between two. -/
theorem join_eq (parts : List PathUnits) : join parts false = normalize (text 47 (parts.filter (· ≠ []))) false := by
  rw [join]
  congr 1
  induction parts with
  | nil => rfl
  | cons part parts ih =>
    rw [List.foldl_cons]
    by_cases hpart : part = []
    · rw [if_pos hpart, ih, List.filter_cons_of_neg (by simp [hpart])]
    · rw [if_neg hpart, List.filter_cons_of_pos (by simp [hpart]), text_eq_flatMap, ← foldl_joined parts hpart]
      simp

/-! ## The two compared -/

/-- A text that begins with two slashes and not with three. -/
def TwoSlashes (units : PathUnits) : Prop := [47, 47] <+: units ∧ ¬[47, 47, 47] <+: units

instance : DecidablePred TwoSlashes := fun _ => inferInstanceAs (Decidable (_ ∧ _))

theorem decode16_cons_single {unit : UInt16} (h : Single unit) (units : PathUnits) :
    decode16 (unit :: units) = point unit :: decode16 units := decode16_at h [] units

/-- A string begins with a unit that stands alone where its units do. -/
theorem head?_decode16_eq_point {unit : UInt16} (h : Single unit) (units : PathUnits) :
    (decode16 units).head? = some (point unit) ↔ units.head? = some unit := by
  constructor
  · intro hhead
    obtain ⟨text, htext⟩ := List.head?_eq_some_iff.mp hhead
    have hunits := toUnits_decode16 units
    rw [htext, Utf16.toUnits, List.flatMap_cons, point, unitsOf_unit] at hunits
    rw [← hunits]
    rfl
  · intro hhead
    obtain ⟨rest, rfl⟩ := List.head?_eq_some_iff.mp hhead
    rw [decode16_cons_single h, List.head?_cons]

theorem isabs_decode16 (path : PathUnits) : isabs (decode16 path) = isAbsolute path false := by
  rw [isabs, isAbsolute, Bool.eq_iff_iff, beq_iff_eq, slashPoint, head?_decode16_eq_point (by decide)]
  simp

theorem prefix_decode16 {front : PathUnits} (h : ∀ unit ∈ front, Single unit) (units : PathUnits) :
    front.map point <+: decode16 units ↔ front <+: units := by
  induction front generalizing units with
  | nil => simp
  | cons unit front ih =>
    have hunit := h unit List.mem_cons_self
    have hhead := head?_decode16_eq_point hunit units
    cases units with
    | nil => simp [decode16]
    | cons first units =>
      by_cases hfirst : first = unit
      · subst hfirst
        rw [decode16_cons_single hunit, List.map_cons, List.cons_prefix_cons, List.cons_prefix_cons,
          ih (fun u hu => h u (List.mem_cons_of_mem _ hu))]
        simp
      · have hother : ¬(decode16 (first :: units)).head? = some (point unit) := by simpa [hfirst] using hhead
        constructor
        · rintro ⟨text, htext⟩
          exact absurd (by rw [← htext]; rfl) hother
        · intro hprefix
          exact absurd (List.cons_prefix_cons.mp hprefix).1.symm hfirst

theorem initialSlashes_decode16 (units : PathUnits) :
    initialSlashes (decode16 units) = if TwoSlashes units then 2 else if isAbsolute units false then 1 else 0 := by
  have htwo := @prefix_decode16 [47, 47] (single_of_all (by decide)) units
  have hthree := @prefix_decode16 [47, 47, 47] (single_of_all (by decide)) units
  rw [initialSlashes, isabs_decode16]
  simp only [TwoSlashes, ← htwo, ← hthree, Bool.and_eq_true, Bool.not_eq_true', List.isPrefixOf_iff_prefix,
    ← Bool.not_eq_true]
  rfl

theorem isAbsolute_of_twoSlashes {units : PathUnits} (h : TwoSlashes units) : isAbsolute units false = true := by
  obtain ⟨⟨rest, rfl⟩, -⟩ := h
  rfl

/-- `normpath` normalizes as the other binding does, but for exactly two slashes. -/
theorem normpath_decode16 (units : PathUnits) :
    normpath (decode16 units) =
      if TwoSlashes units then slashPoint :: decode16 (normalize units false)
      else decode16 (normalize units false) := by
  by_cases hunits : units = []
  · subst hunits
    decide
  · have hinitial : (initialSlashes (decode16 units) == 0) = !isAbsolute units false := by
      rw [initialSlashes_decode16]
      split_ifs with htwo habsolute
      · rw [isAbsolute_of_twoSlashes htwo]
        rfl
      · rw [habsolute]
        rfl
      · rw [Bool.not_eq_true] at habsolute
        rw [habsolute]
        rfl
    have hcomps : ((decode16 units).splitOnP (· == slashPoint)).foldl (normComp (initialSlashes (decode16 units))) [] =
        ((eval 46 (!isAbsolute units false) (components (sep · false) units)).map decode16).reverse := by
      rw [foldl_normComp _ (by simp), hinitial, funext beq_slashPoint, ← eval_decode16, ← components_decode16, eval,
        List.reverse_reverse]
      rfl
    rw [normpath, if_neg fun h => hunits (decode16_eq_nil.mp h)]
    simp only [hcomps, List.reverse_reverse]
    rw [slashPoint, ← text_decode16 (by decide), initialSlashes_decode16, normalize_posix]
    by_cases htwo : TwoSlashes units
    · simp [htwo, isAbsolute_of_twoSlashes htwo, decode16_cons_single (show Single 47 by decide), List.replicate]
    · cases habsolute : isAbsolute units false with
      | true => simp [htwo, decode16_cons_single (show Single 47 by decide)]
      | false =>
        simp only [htwo, if_false, Bool.false_eq_true, List.replicate_zero, List.nil_append, Bool.not_false,
          decode16_eq_nil]
        split_ifs with hempty
        · rfl
        · rfl

theorem nodePosixSingleRoot_of_single {path : Text} (h : ¬[slashPoint, slashPoint] <+: path) :
    nodePosixSingleRoot path = path := by
  rw [nodePosixSingleRoot, if_neg (by simpa using h)]

/-- Components begin with no slash. -/
theorem head?_text {cs : List PathUnits} (h : ∀ c ∈ cs, c ≠ [] ∧ ∀ unit ∈ c, sep unit false = false) :
    (text 47 cs).head? ≠ some 47 := by
  intro hslash
  cases cs with
  | nil => simp at hslash
  | cons c cs =>
    obtain ⟨hne, hsep⟩ := h c List.mem_cons_self
    rw [text_eq_flatMap, List.head?_append_of_ne_nil _ hne] at hslash
    exact absurd (hsep 47 (List.mem_of_head? hslash)) (by decide)

/-- Components end with no slash. -/
theorem getLast?_text {cs : List PathUnits} (h : ∀ c ∈ cs, c ≠ [] ∧ ∀ unit ∈ c, sep unit false = false) :
    (text 47 cs).getLast? ≠ some 47 := by
  intro hslash
  induction cs using List.reverseRecOn with
  | nil => simp at hslash
  | append_singleton cs c ih =>
    obtain ⟨hne, hsep⟩ := h c (by simp)
    have hlast : c.getLast? = some 47 := by
      by_cases hcs : cs = []
      · simpa [hcs] using hslash
      · rw [PathStack.text_concat hcs, List.append_cons, List.getLast?_append_of_ne_nil _ hne] at hslash
        exact hslash
    exact absurd (hsep 47 (List.mem_of_getLast? hlast)) (by decide)

/-- What `_resolve_local_path` does to an absolute path. -/
theorem single_root_normpath {units : PathUnits} (h : isAbsolute units false = true) :
    nodePosixSingleRoot (normpath (decode16 units)) =
      decode16 (47 :: text 47 (eval 46 false (components (sep · false) units))) := by
  have hnormal : normalize units false = 47 :: text 47 (eval 46 false (components (sep · false) units)) := by
    rw [normalize_posix, h]
    simp
  have hhead : (decode16 (text 47 (eval 46 false (components (sep · false) units)))).head? ≠ some slashPoint := by
    rw [slashPoint, ne_eq, head?_decode16_eq_point (by decide)]
    refine head?_text fun c hc => ?_
    obtain ⟨hmem, hne⟩ := PathStack.mem_of_mem_eval hc
    exact ⟨hne, PathStack.not_sep_of_mem_components hmem⟩
  rw [normpath_decode16, hnormal, decode16_cons_single (by decide)]
  split_ifs with htwo
  · generalize decode16 (text 47 (eval 46 false (components (sep · false) units))) = rest at hhead
    rw [show point 47 = slashPoint from rfl, nodePosixSingleRoot, if_pos (by simp [List.isPrefixOf]),
      List.dropWhile_cons_of_pos (by simp), List.dropWhile_cons_of_pos (by simp)]
    cases rest with
    | nil => rfl
    | cons c rest => rw [List.dropWhile_cons_of_neg (by simpa using hhead)]
  · refine nodePosixSingleRoot_of_single fun hprefix => hhead ?_
    obtain ⟨rest, hrest⟩ := (List.cons_prefix_cons.mp hprefix).2
    rw [← hrest]
    rfl

/-- A path that is no abbreviation of another. -/
def Literal (path : PathUnits) : Prop := path.head? ≠ some 126 ∧ ¬fileScheme <+: path

instance : DecidablePred Literal := fun _ => inferInstanceAs (Decidable (_ ∧ _))

theorem components_posix (front rest : PathUnits) :
    components (sep · false) (front ++ 47 :: rest) = components (sep · false) front ++ components (sep · false) rest :=
  @components_slash false front rest

theorem getLast?_decode16 (units : PathUnits) :
    (decode16 units).getLast? = some slashPoint ↔ ∃ front, units = front ++ [47] := by
  constructor
  · intro hlast
    obtain ⟨text, htext⟩ := List.getLast?_eq_some_iff.mp hlast
    have hunits := toUnits_decode16 units
    rw [htext, Utf16.toUnits, List.flatMap_append, List.flatMap_singleton, slashPoint, point, unitsOf_unit] at hunits
    exact ⟨_, hunits.symm⟩
  · rintro ⟨front, rfl⟩
    rw [decode16_at (by decide)]
    simp [decode16, slashPoint]

/-- A relative path behind a directory has the components of the one and then of the other. -/
theorem osJoin_decode16 {cwd raw : PathUnits} (hcwd : isAbsolute cwd false = true)
    (hraw : isAbsolute raw false = false) :
    ∃ joined, osJoin (decode16 cwd) (decode16 raw) = decode16 joined ∧ isAbsolute joined false = true ∧
      eval 46 false (components (sep · false) joined) =
        eval 46 false (components (sep · false) cwd ++ components (sep · false) raw) := by
  have hne : cwd ≠ [] := by
    rintro rfl
    simp [isAbsolute] at hcwd
  have habsolute : ∀ more, isAbsolute (cwd ++ more) false = true := by
    intro more
    cases cwd with
    | nil => exact absurd rfl hne
    | cons unit cwd => exact hcwd
  rw [osJoin, isabs_decode16, hraw, if_neg (by decide)]
  by_cases hlast : ∃ front, cwd = front ++ [47]
  · rw [if_pos (.inr ((getLast?_decode16 cwd).mpr hlast))]
    obtain ⟨front, rfl⟩ := hlast
    refine ⟨front ++ [47] ++ raw, ?_, habsolute raw, ?_⟩
    · rw [List.append_assoc, decode16_at (by decide), List.singleton_append, decode16_at (by decide)]
      simp [decode16]
    · rw [List.append_assoc, List.singleton_append, components_posix, components_posix, PathStack.components_nil,
        List.append_assoc, eval, eval, List.foldl_append, List.foldl_append, List.singleton_append, List.foldl_cons]
      simp [push]
  · have hopen : ¬(decode16 cwd = [] ∨ (decode16 cwd).getLast? = some slashPoint) := by
      rw [decode16_eq_nil, getLast?_decode16]
      simp only [hne, hlast, or_self, not_false_eq_true]
    rw [if_neg hopen]
    exact ⟨cwd ++ 47 :: raw, by rw [decode16_at (by decide), slashPoint], habsolute _, by rw [components_posix]⟩

theorem expandedText_of_literal {raw : PathUnits} (h : Literal raw) (home : Text) (fileUrlToPath : Text → Option Text) :
    expandedText home fileUrlToPath (decode16 raw) = decode16 raw := by
  have hpoint : (decode16 raw).head? ≠ some (point 126) := by
    rw [ne_eq, head?_decode16_eq_point (by decide)]
    exact h.1
  have hscheme : ¬fileScheme.map point <+: decode16 raw := by
    rw [prefix_decode16 (single_of_all (by decide))]
    exact h.2
  rw [expandedText, if_neg fun heq => hpoint (by rw [heq]; rfl), if_neg, if_neg (by simpa using hscheme)]
  rw [List.isPrefixOf_iff_prefix]
  rintro ⟨rest, hrest⟩
  exact hpoint (by rw [← hrest]; rfl)

theorem expanded_of_literal {raw : PathUnits} (h : Literal raw) (home : Option PathUnits)
    (fileUrlToPath : PathUnits → Option PathUnits) : expanded home fileUrlToPath false raw = raw := by
  rw [expanded, if_neg (by simpa using h.2), if_neg]
  intro htilde
  simp only [Bool.or_eq_true, decide_eq_true_eq, List.isPrefixOf_iff_prefix, Bool.false_and, Bool.false_eq_true,
    or_false] at htilde
  cases htilde with
  | inl heq => exact h.1 (by rw [heq]; rfl)
  | inr hprefix =>
    obtain ⟨rest, rfl⟩ := hprefix
    exact h.1 rfl

/-- Against an absolute working directory, the two bindings resolve a path to the same. -/
theorem resolveLocalPath_eq {cwd raw : PathUnits} (hcwd : isAbsolute cwd false = true) (hraw : Literal raw)
    (home : Text) (fileUrlToPath : Text → Option Text) (home' : Option PathUnits)
    (fileUrlToPath' : PathUnits → Option PathUnits)
    (lower : PathUnits → PathUnits) (host : Host PathUnits ε) :
    ∃ path, resolveLogical home' fileUrlToPath' false lower host cwd raw = ([], .ok path) ∧
      resolveLocalPath home fileUrlToPath (decode16 cwd) (decode16 raw) = decode16 path := by
  rw [resolveLogical, resolveLocalPath, expandedText_of_literal hraw, expanded_of_literal hraw, isabs_decode16]
  cases habsolute : isAbsolute raw false with
  | true =>
    refine ⟨_, resolve_posix (by simp [habsolute]), ?_⟩
    rw [if_pos rfl, single_root_normpath habsolute]
    simp [fromLastAbsolute, partComponents]
  | false =>
    refine ⟨_, resolve_posix (by simp [hcwd]), ?_⟩
    obtain ⟨joined, hjoined, hroot, heval⟩ := osJoin_decode16 hcwd habsolute
    rw [if_neg (by decide), hjoined, single_root_normpath hroot, heval]
    simp [fromLastAbsolute, partComponents, habsolute]

theorem text_filter_decode16 (parts : List PathUnits) :
    text slashPoint ((parts.map decode16).filter (· ≠ [])) = decode16 (text 47 (parts.filter (· ≠ []))) := by
  rw [text_decode16 (by decide), List.filter_map]
  congr 2
  refine List.filter_congr fun part _ => ?_
  simp

/-- Joining agrees but where the joined text begins with exactly two slashes. -/
theorem joinPath_eq_iff (parts : List PathUnits) :
    joinPath (parts.map decode16) = decode16 (join parts false) ↔ ¬TwoSlashes (text 47 (parts.filter (· ≠ []))) := by
  rw [join_eq, joinPath]
  by_cases hparts : parts = []
  · subst hparts
    exact ⟨fun _ => by decide, fun _ => by decide⟩
  · rw [if_neg (by simpa using hparts), text_filter_decode16, normpath_decode16]
    split_ifs with htwo
    · refine ⟨fun heq => absurd (congrArg List.length heq) ?_, fun h => absurd htwo h⟩
      simp
    · exact ⟨fun _ => htwo, fun _ => rfl⟩

/-- A relative path joined to a directory. -/
theorem join_directory {d n : PathUnits} (hd : isAbsolute d false = true) :
    join [d, n] false =
      47 :: text 47 (eval 46 false (components (sep · false) d ++ components (sep · false) n)) := by
  have hne : d ≠ [] := by
    rintro rfl
    simp [isAbsolute] at hd
  rw [join_eq, List.filter_cons_of_pos (by simpa using hne)]
  by_cases hn : n = []
  · subst hn
    rw [List.filter_cons_of_neg (by simp), List.filter_nil, PathStack.text_singleton, normalize_posix, hd,
      PathStack.components_nil, PathStack.eval_concat_nil]
    simp
  · have habsolute : isAbsolute (d ++ 47 :: n) false = true := by
      cases d with
      | nil => exact absurd rfl hne
      | cons unit d => exact hd
    rw [List.filter_cons_of_pos (by simpa using hn), List.filter_nil, PathStack.text_cons (by simp),
      PathStack.text_singleton, normalize_posix, habsolute, components_posix]
    simp

theorem twoSlashes_directory {d n : PathUnits} (hd : IsNormal false d) (hn : isAbsolute n false = false) :
    TwoSlashes (text 47 ([d, n].filter (· ≠ []))) ↔ d = [47] ∧ n ≠ [] := by
  obtain ⟨device, cs, hdevice, hcs, rfl⟩ := hd
  obtain rfl : device = [] := hdevice
  have hhead := head?_text fun c hc => ⟨(hcs c hc).1.1, (hcs c hc).2⟩
  rw [List.nil_append, show slash false = 47 from rfl, List.filter_cons_of_pos (by simp)]
  by_cases hempty : n = []
  · subst hempty
    rw [List.filter_cons_of_neg (by simp), List.filter_nil, PathStack.text_singleton]
    refine ⟨fun htwo => ?_, fun h => absurd rfl h.2⟩
    obtain ⟨rest, hrest⟩ := (List.cons_prefix_cons.mp htwo.1).2
    exact absurd (by rw [← hrest]; rfl) hhead
  · rw [List.filter_cons_of_pos (by simpa using hempty), List.filter_nil, PathStack.text_cons (by simp),
      PathStack.text_singleton]
    constructor
    · intro htwo
      refine ⟨?_, hempty⟩
      obtain ⟨rest, hrest⟩ := (List.cons_prefix_cons.mp htwo.1).2
      cases htext : text 47 cs with
      | nil => rfl
      | cons unit units =>
        rw [htext] at hrest hhead
        obtain rfl : 47 = unit := (List.cons.inj hrest).1
        exact absurd rfl hhead
    · rintro ⟨hroot, -⟩
      rw [hroot]
      refine ⟨⟨n, rfl⟩, fun hthree => ?_⟩
      obtain ⟨rest, hrest⟩ := hthree
      obtain rfl : 47 :: rest = n := by simpa using hrest
      simp [isAbsolute] at hn

/-- What a relative path means in a directory, in one binding and in the other: joined
to it, and resolved against it. -/
structure JoinsAsResolved (home : Text) (fileUrlToPath : Text → Option Text) (home' : Option PathUnits)
    (fileUrlToPath' : PathUnits → Option PathUnits) (lower : PathUnits → PathUnits) (host : Host PathUnits ε)
    (d n : PathUnits) : Prop where
  python : joinPath [decode16 d, decode16 n] = resolveLocalPath home fileUrlToPath (decode16 d) (decode16 n)
  rust : resolveLogical home' fileUrlToPath' false lower host d n = ([], .ok (join [d, n] false))

/-- Joining a relative path to a directory is resolving it there, in both bindings, but
for a path that is not empty at the root. -/
theorem joinsAsResolved_iff {d n : PathUnits} (hd : IsNormal false d) (hn : isAbsolute n false = false)
    (hliteral : Literal n) (home : Text) (fileUrlToPath : Text → Option Text) (home' : Option PathUnits)
    (fileUrlToPath' : PathUnits → Option PathUnits) (lower : PathUnits → PathUnits) (host : Host PathUnits ε) :
    JoinsAsResolved home fileUrlToPath home' fileUrlToPath' lower host d n ↔ (d = [47] → n = []) := by
  have habsolute := isAbsolute_of_normal hd
  have hrust : resolveLogical home' fileUrlToPath' false lower host d n = ([], .ok (join [d, n] false)) := by
    rw [resolveLogical, expanded_of_literal hliteral, hn, if_neg (by decide), resolve_posix (by simp [habsolute]),
      join_directory habsolute]
    simp [fromLastAbsolute, partComponents, hn]
  obtain ⟨path, hpath, hpython⟩ :=
    resolveLocalPath_eq habsolute hliteral home fileUrlToPath home' fileUrlToPath' lower host
  obtain rfl : join [d, n] false = path := by simpa using hrust.symm.trans hpath
  have hjoins := joinPath_eq_iff [d, n]
  rw [twoSlashes_directory hd hn] at hjoins
  constructor
  · intro h hroot
    by_contra hne
    exact hjoins.mp (h.python.trans hpython) ⟨hroot, hne⟩
  · intro h
    exact ⟨(hjoins.mpr fun hroot => hroot.2 (h hroot.1)).trans hpython.symm, hrust⟩

/-- The two bindings resolve alike; they join alike where the joined text does not begin
with exactly two slashes, and joining to a directory is resolving there but at the root. -/
theorem posix_agree_iff (home : Text) (fileUrlToPath : Text → Option Text) (home' : Option PathUnits)
    (fileUrlToPath' : PathUnits → Option PathUnits) (lower : PathUnits → PathUnits) (host : Host PathUnits ε) :
    (∀ cwd raw, isAbsolute cwd false = true → Literal raw →
      ∃ path, resolveLogical home' fileUrlToPath' false lower host cwd raw = ([], .ok path) ∧
        resolveLocalPath home fileUrlToPath (decode16 cwd) (decode16 raw) = decode16 path) ∧
    (∀ parts : List PathUnits, joinPath (parts.map decode16) = decode16 (join parts false) ↔
      ¬TwoSlashes (text 47 (parts.filter (· ≠ [])))) ∧
    (∀ d n, IsNormal false d → isAbsolute n false = false → Literal n →
      (JoinsAsResolved home fileUrlToPath home' fileUrlToPath' lower host d n ↔ (d = [47] → n = []))) :=
  ⟨fun _ _ hcwd hraw => resolveLocalPath_eq hcwd hraw home fileUrlToPath home' fileUrlToPath' lower host,
    joinPath_eq_iff,
    fun _ _ hd hn hliteral => joinsAsResolved_iff hd hn hliteral home fileUrlToPath home' fileUrlToPath' lower host⟩

/-- `a` in `/d`. -/
theorem posix_agree_directory :
    (∃ path, resolveLogical none (fun _ => none) false id home [47, 100] [97] = ([], .ok path) ∧
      resolveLocalPath [] (fun _ => none) (decode16 [47, 100]) (decode16 [97]) = decode16 path) ∧
      (JoinsAsResolved [] (fun _ => none) none (fun _ => none) id home [47, 100] [97] ↔
        ([47, 100] = [(47 : UInt16)] → [97] = ([] : PathUnits))) := by
  obtain ⟨hresolve, -, hjoin⟩ := posix_agree_iff [] (fun _ => none) none (fun _ => none) id home
  refine ⟨hresolve [47, 100] [97] rfl (by decide), hjoin [47, 100] [97] ⟨[], [[100]], rfl, ?_, rfl⟩ rfl (by decide)⟩
  exact List.forall_mem_singleton.mpr ⟨by decide, List.forall_mem_singleton.mpr rfl⟩

/-- `/` and `a` are joined to `//a`, and to `/a`, which is what `a` is at the root. -/
theorem joinPath_root :
    joinPath [decode16 [47], decode16 [97]] = decode16 [47, 47, 97] ∧
      join [[47], [97]] false = [47, 97] ∧
      resolveLocalPath [] (fun _ => none) (decode16 [47]) (decode16 [97]) = decode16 [47, 97] := by
  decide

end MinionAgent.PosixPath
