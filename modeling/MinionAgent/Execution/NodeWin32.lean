import MinionAgent.Execution.PathText

/-!
# MinionAgent.Execution.NodeWin32

Node's `path.win32.resolve` as `execution/filesystem.py` has it, character by
character, on strings of code points.

* `nodeNormalizeString` — one pass over the characters, which appends segments to the
  result and cuts them off again;
* `nodeNormalizeString_eq` — it evaluates the components on a stack;
* `nodeWin32Resolve_eq` — it resolves as the resolver on UTF-16 units does, and asks
  the environment the same questions.
-/

namespace MinionAgent.NodeWin32

open Rfc8259 (CodePoint)
open PathStack (push up eval Plain components text)
open PathResolve

/-- A path, in code points. -/
abbrev Text := List CodePoint

/-- `_is_separator`. -/
def isSeparator (c : CodePoint) : Bool := c == point 47 || c == point 92

/-- An ASCII letter. -/
def isAsciiAlpha (c : CodePoint) : Bool := (65 ≤ c.val && c.val ≤ 90) || (97 ≤ c.val && c.val ≤ 122)

/-- `path[i:j]`. -/
def slice (path : Text) (i j : Nat) : Text := (path.take j).drop i

/-- The first index from `i` on whose character is, or is not, a separator. -/
def skip (path : Text) (separators : Bool) (i : Nat) : Nat :=
  i + ((path.drop i).takeWhile fun c => isSeparator c == separators).length

/-- `_win32_root`: the device, the end of the root, and whether it is absolute. -/
def win32Root (path : Text) : Text × Nat × Bool :=
  let length := path.length
  match path with
  | [] => ([], 0, false)
  | [c] => if isSeparator c then ([], 1, true) else ([], 0, false)
  | c :: d :: rest =>
    if isSeparator c then
      if !isSeparator d then ([], 1, true)
      else
        let j := skip path false 2
        if j < length ∧ j ≠ 2 then
          let first := slice path 2 j
          let last := j
          let j := skip path true last
          if j < length ∧ j ≠ last then
            let last := j
            let j := skip path false last
            if j = length ∨ j ≠ last then
              ([point 92, point 92] ++ first ++ [point 92] ++ slice path last j, j, true)
            else ([], 0, true)
          else ([], 0, true)
        else ([], 0, true)
    else if isAsciiAlpha c && d == point 58 then
      if rest.head?.any isSeparator then ([c, d], 3, true) else ([c, d], 2, false)
    else ([], 0, false)

/-! ## Normalization -/

/-- `text.rfind("\\")`. -/
def rfind (text : Text) : Int :=
  match text.reverse.idxOf? (point 92) with
  | some i => text.length - 1 - i
  | none => -1

/-- `text.endswith("..")`. -/
def endsWithDots (text : Text) : Bool := [point 46, point 46].isSuffixOf text

/-- The locals of `_node_normalize_string`. -/
structure Scan where
  res : Text := []
  lastSegmentLength : Int := 0
  lastSlash : Int := -1
  dots : Int := 0
deriving DecidableEq

/-- `..` in the result. -/
def Scan.parent (s : Scan) (allowAboveRoot : Bool) : Scan :=
  if allowAboveRoot then
    { s with
      res := if s.res ≠ [] then s.res ++ [point 92, point 46, point 46] else [point 46, point 46]
      lastSegmentLength := 2 }
  else s

/-- The result without its last segment. -/
def Scan.cut (s : Scan) : Scan :=
  let index := rfind s.res
  if index = -1 then { s with res := [], lastSegmentLength := 0 }
  else
    let res := s.res.take index.toNat
    { s with res, lastSegmentLength := res.length - 1 - rfind res }

/-- A segment `..`. -/
def Scan.up (s : Scan) (allowAboveRoot : Bool) : Scan :=
  if s.res.length < 2 ∨ s.lastSegmentLength ≠ 2 ∨ ¬endsWithDots s.res then
    if s.res.length > 2 then s.cut
    else if s.res ≠ [] then { s with res := [], lastSegmentLength := 0 }
    else s.parent allowAboveRoot
  else s.parent allowAboveRoot

/-- A segment that is complete: what a separator at index `i` does. -/
def Scan.segment (s : Scan) (path : Text) (allowAboveRoot : Bool) (i : Int) : Scan :=
  if s.lastSlash = i - 1 ∨ s.dots = 1 then { s with lastSlash := i, dots := 0 }
  else if s.dots = 2 then { s.up allowAboveRoot with lastSlash := i, dots := 0 }
  else
    let segment := slice path (s.lastSlash + 1).toNat i.toNat
    { res := if s.res ≠ [] then s.res ++ point 92 :: segment else segment
      lastSegmentLength := i - s.lastSlash - 1
      lastSlash := i
      dots := 0 }

/-- A character that is no separator. -/
def Scan.char (s : Scan) (c : CodePoint) : Scan :=
  if c == point 46 && s.dots ≠ -1 then { s with dots := s.dots + 1 } else { s with dots := -1 }

/-- The loop at index `i`, before which stands the character `char`. -/
def normalizeLoop (path : Text) (allowAboveRoot : Bool) : Text → Option CodePoint → Int → Scan → Text
  | [], char, i, s => if char.any isSeparator then s.res else (s.segment path allowAboveRoot i).res
  | c :: rest, _, i, s =>
    normalizeLoop path allowAboveRoot rest (some c) (i + 1)
      (if isSeparator c then s.segment path allowAboveRoot i else s.char c)

/-- `_node_normalize_string`. -/
def nodeNormalizeString (path : Text) (allowAboveRoot : Bool) : Text :=
  normalizeLoop path allowAboveRoot path none 0 {}

/-! ## Normalization by components -/

theorem rfind_of_not_mem {text : Text} (h : point 92 ∉ text) : rfind text = -1 := by
  rw [rfind, List.idxOf?_eq_none_iff.mpr (by simpa using h)]

theorem idxOf?_first {front : Text} {c : CodePoint} (h : c ∉ front) (behind : Text) :
    (front ++ c :: behind).idxOf? c = some front.length := by
  induction front with
  | nil => simp [List.idxOf?_cons]
  | cons d front ih =>
    rw [List.mem_cons, not_or] at h
    rw [List.cons_append, List.idxOf?_cons, if_neg (by simpa using Ne.symm h.1), ih h.2]
    rfl

theorem rfind_append {behind : Text} (h : point 92 ∉ behind) (front : Text) :
    rfind (front ++ point 92 :: behind) = front.length := by
  have hindex : (front ++ point 92 :: behind).reverse.idxOf? (point 92) = some behind.length := by
    rw [List.reverse_append, List.reverse_cons, List.append_assoc, List.singleton_append,
      idxOf?_first (by simpa using h), List.length_reverse]
  rw [rfind, hindex]
  simp only [List.length_append, List.length_cons]
  omega

/-- How far a segment is dots only. -/
def dotsOf (segment : Text) : Int :=
  segment.foldl (fun dots c => if c == point 46 && dots ≠ -1 then dots + 1 else -1) 0

theorem dotsOf_concat (segment : Text) (c : CodePoint) :
    dotsOf (segment ++ [c]) = if c == point 46 && dotsOf segment ≠ -1 then dotsOf segment + 1 else -1 := by
  rw [dotsOf, List.foldl_append, List.foldl_cons, List.foldl_nil, dotsOf]

theorem dotsOf_eq (segment : Text) :
    dotsOf segment = if ∀ c ∈ segment, c = point 46 then (segment.length : Int) else -1 := by
  induction segment using List.reverseRecOn with
  | nil => simp [dotsOf]
  | append_singleton segment c ih =>
    rw [dotsOf_concat, ih]
    by_cases hsegment : ∀ d ∈ segment, d = point 46
    · have hne : (segment.length : Int) ≠ -1 := by omega
      rw [if_pos hsegment]
      by_cases hc : c = point 46
      · have hall : ∀ d ∈ segment ++ [c], d = point 46 := by
          intro d hd
          cases List.mem_append.mp hd with
          | inl hmem => exact hsegment d hmem
          | inr hlast => exact (List.mem_singleton.mp hlast).trans hc
        rw [if_pos (by simp [hc, hne]), if_pos hall]
        simp
      · rw [if_neg (by simp [hc]), if_neg (by simp [hc])]
    · rw [if_neg hsegment, if_neg (by simp), if_neg fun h => hsegment fun d hd => h d (List.mem_append_left _ hd)]

theorem eq_replicate_of_dotsOf {segment : Text} {n : Nat} (h : dotsOf segment = n) :
    segment = List.replicate n (point 46) := by
  rw [dotsOf_eq] at h
  split_ifs at h with hall
  exact List.eq_replicate_iff.mpr ⟨by omega, hall⟩

/-- The result is the text of a stack of segments. -/
structure Scan.Holds (s : Scan) (stack : List Text) : Prop where
  res : s.res = text (point 92) stack.reverse
  length : s.lastSegmentLength = (stack.head?.getD []).length
  segments : ∀ c ∈ stack, c ≠ [] ∧ ∀ a ∈ c, isSeparator a = false

theorem not_mem_of_segment {c : Text} (h : ∀ a ∈ c, isSeparator a = false) : point 92 ∉ c := by
  intro hmem
  exact absurd (h _ hmem) (by decide)

theorem text_reverse_cons {below : List Text} (h : below ≠ []) (top : Text) :
    text (point 92) (top :: below).reverse = text (point 92) below.reverse ++ point 92 :: top := by
  rw [List.reverse_cons, PathStack.text_concat (by simpa using h)]

/-- The length of the last segment, counted from the last separator. -/
theorem rfind_text {stack : List Text} (h : ∀ c ∈ stack, ∀ a ∈ c, isSeparator a = false) :
    (text (point 92) stack.reverse).length - 1 - rfind (text (point 92) stack.reverse) =
      ((stack.head?.getD []).length : Int) := by
  cases stack with
  | nil => decide
  | cons top below =>
    have htop := not_mem_of_segment (h top List.mem_cons_self)
    by_cases hbelow : below = []
    · subst hbelow
      simp [rfind_of_not_mem htop]
    · rw [text_reverse_cons hbelow, rfind_append htop]
      simp only [List.length_append, List.length_cons, List.head?_cons, Option.getD_some]
      omega

namespace Scan

variable {s : Scan} {stack : List Text}

theorem Holds.res_eq_nil (h : s.Holds stack) : s.res = [] ↔ stack = [] := by
  rw [h.res]
  constructor
  · intro hnil
    by_contra hne
    exact PathStack.text_ne_nil (fun c hc => (h.segments c (List.mem_reverse.mp hc)).1) (by simpa using hne) hnil
  · rintro rfl
    rfl

/-- `..` is appended. -/
theorem Holds.parent (h : s.Holds stack) :
    (s.parent true).Holds ([point 46, point 46] :: stack) := by
  have hdots : ∀ a ∈ [point 46, point 46], isSeparator a = false := by simp [isSeparator]
  refine ⟨?_, rfl, List.forall_mem_cons.mpr ⟨⟨by simp, hdots⟩, h.segments⟩⟩
  by_cases hstack : stack = []
  · subst hstack
    simp [Scan.parent, h.res_eq_nil]
  · rw [text_reverse_cons hstack, ← h.res]
    simp [Scan.parent, h.res_eq_nil, hstack]

/-- The last segment is cut off. -/
theorem Holds.cut {top : Text} {below : List Text} (h : s.Holds (top :: below)) : s.cut.Holds below := by
  have htop := not_mem_of_segment (h.segments top List.mem_cons_self).2
  have hbelow := List.forall_mem_cons.mp h.segments
  by_cases hempty : below = []
  · subst hempty
    have hres : s.res = top := by simpa using h.res
    rw [Scan.cut, hres, rfind_of_not_mem htop]
    exact ⟨rfl, rfl, by simp⟩
  · have hres := h.res
    rw [text_reverse_cons hempty] at hres
    rw [Scan.cut, hres, rfind_append htop]
    simp only [show ((text (point 92) below.reverse).length : Int) ≠ -1 by omega, if_false, Int.toNat_natCast,
      List.take_left]
    exact ⟨rfl, rfind_text fun c hc => (hbelow.2 c hc).2, hbelow.2⟩

/-- A segment is appended. -/
theorem Holds.append (h : s.Holds stack) {segment : Text} (hne : segment ≠ [])
    (hsegment : ∀ a ∈ segment, isSeparator a = false) {lastSlash dots length : Int}
    (hlength : length = segment.length) :
    Holds
      { res := if s.res ≠ [] then s.res ++ point 92 :: segment else segment
        lastSegmentLength := length
        lastSlash, dots } (segment :: stack) := by
  refine ⟨?_, hlength, List.forall_mem_cons.mpr ⟨⟨hne, hsegment⟩, h.segments⟩⟩
  by_cases hstack : stack = []
  · subst hstack
    simp [h.res_eq_nil]
  · rw [text_reverse_cons hstack, ← h.res]
    simp [h.res_eq_nil, hstack]

/-- Whether the last segment is `..`, as it is read off the result. -/
theorem Holds.top_dots {top : Text} {below : List Text} (h : s.Holds (top :: below)) :
    (s.res.length < 2 ∨ s.lastSegmentLength ≠ 2 ∨ ¬endsWithDots s.res = true) ↔ top ≠ [point 46, point 46] := by
  have hsuffix : top <:+ s.res := by
    rw [h.res, List.reverse_cons]
    by_cases hbelow : below = []
    · simp [hbelow]
    · rw [PathStack.text_concat (by simpa using hbelow)]
      exact ⟨text (point 92) below.reverse ++ [point 92], by simp⟩
  have hlength : s.lastSegmentLength = top.length := h.length
  constructor
  · rintro hcut rfl
    have hshort := hsuffix.length_le
    simp only [List.length_cons, List.length_nil] at hshort hlength
    cases hcut with
    | inl hlt => omega
    | inr hcut =>
      cases hcut with
      | inl hother => exact hother hlength
      | inr hends => exact hends (by simpa [endsWithDots] using hsuffix)
  · intro hne
    by_contra hdots
    simp only [not_or, not_lt, not_not, endsWithDots, List.isSuffixOf_iff_suffix] at hdots
    obtain ⟨-, htwo, hends⟩ := hdots
    exact hne ((List.suffix_of_suffix_length_le hsuffix hends (by simp; omega)).eq_of_length (by simp; omega))

theorem Holds.kept (h : s.Holds stack) : (s.parent false).Holds stack := h

/-- `..` takes the last segment back, or is appended. -/
theorem Holds.up (h : s.Holds stack) (above : Bool) : (s.up above).Holds (PathStack.up (point 46) above stack) := by
  cases stack with
  | nil =>
    have hres : s.res = [] := h.res
    rw [Scan.up]
    cases above with
    | false => simpa [hres, PathStack.up] using h.kept
    | true => simpa [hres, PathStack.up] using h.parent
  | cons top below =>
    rw [Scan.up, PathStack.up]
    simp only [h.top_dots]
    split_ifs with htop hlong hshort habove
    · exact h.cut
    · -- one or two characters are one segment
      have hbelow : below = [] := by
        by_contra hne
        have hlength := congrArg List.length h.res
        have hfront : text (point 92) below.reverse ≠ [] :=
          PathStack.text_ne_nil (fun c hc => (h.segments c (List.mem_cons_of_mem _ (List.mem_reverse.mp hc))).1)
            (by simpa using hne)
        have hback := (h.segments top List.mem_cons_self).1
        rw [text_reverse_cons hne, List.length_append, List.length_cons] at hlength
        have := List.length_pos_iff.mpr hfront
        have := List.length_pos_iff.mpr hback
        omega
      subst hbelow
      exact ⟨rfl, rfl, by simp⟩
    · exact absurd (h.res_eq_nil.mp (not_not.mp hshort)) (by simp)
    · subst habove
      rw [not_not] at htop
      exact h.parent
    · rw [Bool.not_eq_true] at habove
      subst habove
      exact h.kept

/-- A complete segment is pushed, as it stands in the path behind the last separator. -/
theorem Holds.segment (h : s.Holds stack) {path front segment rest : Text} (above : Bool)
    (hpath : path = front ++ segment ++ rest) (hsegment : ∀ a ∈ segment, isSeparator a = false)
    (hslash : s.lastSlash = front.length - 1) (hdots : s.dots = dotsOf segment) :
    (s.segment path above (front.length + segment.length)).Holds (push (point 46) above stack segment) ∧
      (s.segment path above (front.length + segment.length)).lastSlash = front.length + segment.length ∧
      (s.segment path above (front.length + segment.length)).dots = 0 := by
  have hskip : (s.lastSlash = front.length + segment.length - 1 ∨ s.dots = 1) ↔
      segment = [] ∨ segment = [point 46] := by
    rw [hslash, hdots, ← List.length_eq_zero_iff]
    refine or_congr (by omega) ⟨fun hone => eq_replicate_of_dotsOf hone, ?_⟩
    rintro rfl
    simp [dotsOf]
  have htwo : s.dots = 2 ↔ segment = [point 46, point 46] := by
    rw [hdots]
    refine ⟨fun h => eq_replicate_of_dotsOf h, ?_⟩
    rintro rfl
    simp [dotsOf]
  rw [Scan.segment, push]
  simp only [hskip, htwo]
  by_cases hempty : segment = [] ∨ segment = [point 46]
  · rw [if_pos hempty, if_pos hempty]
    exact ⟨⟨h.res, h.length, h.segments⟩, rfl, rfl⟩
  · rw [if_neg hempty, if_neg hempty]
    by_cases hdotted : segment = [point 46, point 46]
    · rw [if_pos hdotted, if_pos hdotted]
      have hup := h.up above
      exact ⟨⟨hup.res, hup.length, hup.segments⟩, rfl, rfl⟩
    · have hslice : slice path (s.lastSlash + 1).toNat (front.length + segment.length : Int).toNat = segment := by
        rw [hslash, hpath, slice, show ((front.length : Int) - 1 + 1).toNat = front.length by omega,
          show ((front.length : Int) + segment.length).toNat = (front ++ segment).length by simp; omega,
          List.take_left, List.drop_left]
      rw [if_neg hdotted, if_neg hdotted, hslice]
      exact ⟨h.append (fun hnil => hempty (.inl hnil)) hsegment (by omega), rfl, rfl⟩

end Scan

/-- The rest of the path is evaluated on the stack of the segments so far. -/
theorem normalizeLoop_eq {path front segment : Text} (rest : Text) {above : Bool} {s : Scan} {stack : List Text}
    (char : Option CodePoint) (h : s.Holds stack) (hpath : path = front ++ segment ++ rest)
    (hsegment : ∀ a ∈ segment, isSeparator a = false) (hslash : s.lastSlash = front.length - 1)
    (hdots : s.dots = dotsOf segment) (hchar : char.any isSeparator = true → segment = []) :
    normalizeLoop path above rest char (front.length + segment.length) s =
      text (point 92) ((components isSeparator (segment ++ rest)).foldl (push (point 46) above) stack).reverse := by
  induction rest generalizing front segment s stack char with
  | nil =>
    rw [normalizeLoop, List.append_nil, PathStack.components_eq_singleton hsegment, List.foldl_cons, List.foldl_nil]
    split_ifs with hlast
    · rw [hchar hlast, push, if_pos (.inl rfl), h.res]
    · exact (h.segment above hpath hsegment hslash hdots).1.res
  | cons c rest ih =>
    rw [normalizeLoop]
    cases hc : isSeparator c with
    | true =>
      obtain ⟨hnext, hlast, hzero⟩ := h.segment above hpath hsegment hslash hdots
      rw [PathStack.components_append hc, PathStack.components_eq_singleton hsegment, List.singleton_append,
        List.foldl_cons, if_pos rfl]
      have hpath' : path = (front ++ segment ++ [c]) ++ [] ++ rest := by simp [hpath]
      have hslash' : (s.segment path above (front.length + segment.length)).lastSlash =
          (front ++ segment ++ [c]).length - 1 := by
        rw [hlast]
        simp
        omega
      have hih := ih (some c) hnext hpath' (by simp) hslash' hzero fun _ => rfl
      simpa [Int.add_assoc] using hih
    | false =>
      have hnext : (s.char c).Holds stack ∧ (s.char c).lastSlash = s.lastSlash ∧
          (s.char c).dots = dotsOf (segment ++ [c]) := by
        rw [Scan.char, dotsOf_concat, ← hdots]
        split_ifs
        · exact ⟨⟨h.res, h.length, h.segments⟩, rfl, rfl⟩
        · exact ⟨⟨h.res, h.length, h.segments⟩, rfl, rfl⟩
      have hsegment' : ∀ a ∈ segment ++ [c], isSeparator a = false := by
        intro a ha
        cases List.mem_append.mp ha with
        | inl hmem => exact hsegment a hmem
        | inr hlast => exact List.mem_singleton.mp hlast ▸ hc
      have hih := ih (some c) hnext.1 (show path = front ++ (segment ++ [c]) ++ rest by simp [hpath]) hsegment'
        (hnext.2.1.trans hslash) hnext.2.2 (by simp [hc])
      rw [if_neg (by decide)]
      simpa [Int.add_assoc] using hih

/-- The pass over the characters evaluates the components. -/
theorem nodeNormalizeString_eq (path : Text) (above : Bool) :
    nodeNormalizeString path above = text (point 92) (eval (point 46) above (components isSeparator path)) :=
  normalizeLoop_eq path none ⟨rfl, rfl, by simp⟩ (show path = [] ++ [] ++ path from rfl) (by simp) rfl rfl (by simp)

/-! ## Resolution -/

variable {ε : Type}

/-- The first two units of a base are compared with the drive, and the third is looked at. -/
def checkedDriveBase (lower : Text → Text) (device path : Text) : Text :=
  let units := Utf16.toUnits path
  let firstTwo := decode16 (units.take 2)
  if lower firstTwo ≠ lower device ∧ (units.drop 2).take 1 = [92] then device ++ [point 92] else path

/-- `_select_drive_base`, and which questions it takes. -/
def selectDriveBase (lower : Text → Text) (device : Text) (host : Host Text ε) :
    List (Consulted Text) × Except ε Text :=
  match (host.inherited device).filter (· ≠ []) with
  | some value => ([.inherited device], .ok (checkedDriveBase lower device value))
  | none => ([.inherited device, .processCwd], host.processCwd.map (checkedDriveBase lower device))

/-- The locals of `node_win32_resolve`. -/
structure Resolved where
  device : Text := []
  tail : Text := []
  absolute : Bool := false
deriving DecidableEq

/-- What one path does: whether the loop ends with it. -/
def Resolved.take (s : Resolved) (lower : Text → Text) (path : Text) : Bool × Resolved :=
  let (device, rootEnd, isAbsolute) := win32Root path
  if device ≠ [] ∧ s.device ≠ [] ∧ lower device ≠ lower s.device then (false, s)
  else
    let s := if device ≠ [] ∧ s.device = [] then { s with device } else s
    if s.absolute then (s.device ≠ [], s)
    else
      (isAbsolute && s.device ≠ [],
        { s with tail := path.drop rootEnd ++ point 92 :: s.tail, absolute := isAbsolute })

/-- The loop over the paths, the last of them first, and then what stands in front of them. -/
def resolveLoop (lower : Text → Text) (host : Host Text ε) :
    List Text → Resolved → List (Consulted Text) × Except ε Resolved
  | [], s =>
    let base := if s.device = [] then ([.processCwd], host.processCwd) else selectDriveBase lower s.device host
    (base.1, base.2.map fun path => (s.take lower path).2)
  | path :: paths, s =>
    if path = [] then resolveLoop lower host paths s
    else
      let (done, s) := s.take lower path
      if done then ([], .ok s) else resolveLoop lower host paths s

/-- The path that was found. -/
def Resolved.finish (s : Resolved) : Text :=
  let tail := nodeNormalizeString s.tail (!s.absolute)
  if s.absolute then s.device ++ point 92 :: tail
  else if s.device ++ tail ≠ [] then s.device ++ tail
  else [point 46]

/-- `node_win32_resolve`, and what was consulted. -/
def nodeWin32Resolve (lower : Text → Text) (paths : List Text) (host : Host Text ε) :
    List (Consulted Text) × Except ε Text :=
  let found := resolveLoop lower host paths.reverse {}
  (found.1, found.2.map Resolved.finish)

/-! ## The two resolvers -/

theorem isSeparator_eq (c : CodePoint) : isSeparator c = sepPoint true c := rfl

theorem drop_takeWhile {α : Type} (p : α → Bool) (l : List α) : l.drop (l.takeWhile p).length = l.dropWhile p := by
  have hspan := congrArg (List.drop (l.takeWhile p).length) (List.takeWhile_append_dropWhile (p := p) (l := l))
  rw [List.drop_left] at hspan
  exact hspan.symm

/-- A string begins with a separator where its units do. -/
theorem head?_decode16 (units : PathUnits) :
    (decode16 units).head?.any isSeparator = units.head?.any (sep · true) := by
  cases exists_first_sep units true with
  | inl hnone =>
    have hunits : units.head?.any (sep · true) = false := by
      cases units with
      | nil => rfl
      | cons unit units => exact hnone unit List.mem_cons_self
    rw [hunits]
    cases htext : decode16 units with
    | nil => rfl
    | cons c text => exact not_sepPoint_decode16 hnone c (htext ▸ List.mem_cons_self)
  | inr hsome =>
    obtain ⟨front, unit, rest, rfl, hfront, hunit⟩ := hsome
    rw [decode16_at (single_of_sep hunit)]
    cases front with
    | nil => exact sepPoint_point unit true
    | cons first front =>
      have hfirst := hfront first List.mem_cons_self
      cases htext : decode16 (first :: front) with
      | nil => exact absurd (decode16_eq_nil.mp htext) (List.cons_ne_nil _ _)
      | cons c text =>
        have hc := not_sepPoint_decode16 hfront c (htext ▸ List.mem_cons_self)
        simp only [List.cons_append, List.head?_cons, Option.any_some, hfirst]
        exact hc

/-- A path goes on to the same separator as its units. -/
theorem span_decode16 (units : PathUnits) :
    (decode16 units).takeWhile (fun c => isSeparator c == false) =
        decode16 (units.takeWhile fun unit => !sep unit true) ∧
      (decode16 units).dropWhile (fun c => isSeparator c == false) =
        decode16 (units.dropWhile fun unit => !sep unit true) := by
  cases exists_first_sep units true with
  | inl hnone =>
    have hpoints : ∀ c ∈ decode16 units, (isSeparator c == false) = true := by
      intro c hc
      rw [isSeparator_eq, not_sepPoint_decode16 hnone c hc]
      rfl
    have hunits : ∀ unit ∈ units, (!sep unit true) = true := by simpa using hnone
    rw [List.takeWhile_eq_self_iff.mpr hunits, List.dropWhile_eq_nil_iff.mpr hunits,
      List.takeWhile_eq_self_iff.mpr hpoints, List.dropWhile_eq_nil_iff.mpr hpoints]
    exact ⟨rfl, rfl⟩
  | inr hsome =>
    obtain ⟨front, unit, rest, rfl, hfront, hunit⟩ := hsome
    have hpoints : ∀ c ∈ decode16 front, isSeparator c = false := not_sepPoint_decode16 hfront
    have hpoint : isSeparator (point unit) = true := (sepPoint_point unit true).trans hunit
    rw [decode16_at (single_of_sep hunit), List.takeWhile_append_of_pos (by simpa using hpoints),
      List.takeWhile_cons_of_neg (by simp [hpoint]), List.takeWhile_append_of_pos (by simpa using hfront),
      List.takeWhile_cons_of_neg (by simp [hunit]), List.dropWhile_append_of_pos (by simpa using hpoints),
      List.dropWhile_cons_of_neg (by simp [hpoint]), List.dropWhile_append_of_pos (by simpa using hfront),
      List.dropWhile_cons_of_neg (by simp [hunit]), List.append_nil, List.append_nil]
    exact ⟨rfl, (decode16_at (single_of_sep hunit) [] rest).symm⟩

theorem drop_two_add {α : Type} (a b : α) (l : List α) (i j k : Nat) :
    (a :: b :: l).drop (2 + i + j + k) = ((l.drop i).drop j).drop k := by
  rw [List.drop_drop, List.drop_drop, show 2 + i + j + k = i + (j + k) + 2 by omega]
  rfl

/-- A path goes on past the same separators as its units. -/
theorem span_sep_decode16 (units : PathUnits) :
    (decode16 units).takeWhile (fun c => isSeparator c == true) =
        decode16 (units.takeWhile fun unit => sep unit true) ∧
      (decode16 units).dropWhile (fun c => isSeparator c == true) =
        decode16 (units.dropWhile fun unit => sep unit true) := by
  induction units with
  | nil => exact ⟨rfl, rfl⟩
  | cons unit units ih =>
    cases hunit : sep unit true with
    | true =>
      have hpoint : isSeparator (point unit) = true := (sepPoint_point unit true).trans hunit
      have hcons := fun rest => decode16_at (single_of_sep hunit) [] rest
      simp only [decode16, List.nil_append] at hcons
      have hfirst : (isSeparator (point unit) == true) = true := by simp [hpoint]
      rw [hcons]
      simp only [List.takeWhile_cons, List.dropWhile_cons, hfirst, hunit, if_true, hcons, ih, and_self]
    | false =>
      have hhead := head?_decode16 (unit :: units)
      rw [List.head?_cons, Option.any_some, hunit] at hhead
      rw [List.takeWhile_cons_of_neg (by simp [hunit]), List.dropWhile_cons_of_neg (by simp [hunit])]
      cases htext : decode16 (unit :: units) with
      | nil => exact ⟨rfl, rfl⟩
      | cons c text =>
        rw [htext, List.head?_cons, Option.any_some] at hhead
        rw [List.takeWhile_cons_of_neg (by simp [hhead]), List.dropWhile_cons_of_neg (by simp [hhead])]
        exact ⟨rfl, rfl⟩

theorem isAsciiAlpha_point (unit : UInt16) : isAsciiAlpha (point unit) = drive unit := by
  have hlt := unit.toNat_lt
  rw [isAsciiAlpha, drive, point, codePoint_val (by omega)]
  rfl

/-- A letter is a unit. -/
theorem exists_unit_of_isAsciiAlpha {c : CodePoint} (h : isAsciiAlpha c = true) : ∃ unit, c = point unit := by
  refine ⟨c.val.toUInt16, Fin.ext ?_⟩
  simp only [isAsciiAlpha, Bool.or_eq_true, Bool.and_eq_true, decide_eq_true_eq] at h
  rw [point, toNat_toUInt16 (by omega), codePoint_val c.isLt]

theorem toUnits_point_cons (unit : UInt16) (text : Text) :
    Utf16.toUnits (point unit :: text) = unit :: Utf16.toUnits text := by
  rw [Utf16.toUnits, List.flatMap_cons, point, unitsOf_unit]
  rfl

theorem not_of_dropWhile {α : Type} {p : α → Bool} {l rest : List α} {a : α} (h : l.dropWhile p = a :: rest) :
    p a = false := by
  have := List.head?_dropWhile_not p l
  rw [h] at this
  simpa using this

theorem skip_append (front rest : Text) (separators : Bool) :
    skip (front ++ rest) separators front.length =
      front.length + (rest.takeWhile (isSeparator · == separators)).length := by
  rw [skip, List.drop_left]

theorem slice_append (front middle rest : Text) :
    slice (front ++ middle ++ rest) front.length (front.length + middle.length) = middle := by
  rw [slice, ← List.length_append, List.take_left, List.drop_left]

/-- A root behind two separators, by what stands up to the next separator, up to the
next other character, and so on. -/
theorem win32Root_unc {c d : CodePoint} (hc : isSeparator c = true) (hd : isSeparator d = true)
    {behind server more gap named share : Text}
    (hserver : behind.takeWhile (isSeparator · == false) = server)
    (hmore : behind.dropWhile (isSeparator · == false) = more)
    (hgap : more.takeWhile (isSeparator · == true) = gap)
    (hnamed : more.dropWhile (isSeparator · == true) = named)
    (hshare : named.takeWhile (isSeparator · == false) = share) :
    win32Root (c :: d :: behind) =
      if more ≠ [] ∧ server ≠ [] ∧ share ≠ [] then
        ([point 92, point 92] ++ server ++ [point 92] ++ share,
          2 + server.length + gap.length + share.length, true)
      else ([], 0, true) := by
  have hbehind : behind = server ++ more := by rw [← hserver, ← hmore, List.takeWhile_append_dropWhile]
  have hparts : more = gap ++ named := by rw [← hgap, ← hnamed, List.takeWhile_append_dropWhile]
  have hrest : named = share ++ named.dropWhile (isSeparator · == false) := by
    rw [← hshare, List.takeWhile_append_dropWhile]
  have hpath : c :: d :: behind = [c, d] ++ server ++ gap ++ named := by rw [hbehind, hparts]; simp
  -- the three indices the scan comes to
  have hfirst : skip (c :: d :: behind) false 2 = 2 + server.length := by
    rw [← hserver]
    exact skip_append [c, d] behind false
  have hsecond : skip (c :: d :: behind) true (2 + server.length) = 2 + server.length + gap.length := by
    have h := skip_append ([c, d] ++ server) more true
    rw [hgap, List.length_append] at h
    rw [hbehind]
    exact h
  have hthird : skip (c :: d :: behind) false (2 + server.length + gap.length) =
      2 + server.length + gap.length + share.length := by
    have h := skip_append ([c, d] ++ server ++ gap) named false
    rw [hshare, List.length_append, List.length_append] at h
    rw [hpath]
    exact h
  have hslice : slice (c :: d :: behind) 2 (2 + server.length) = server := by
    rw [hbehind]
    exact slice_append [c, d] server more
  have hslice' : slice (c :: d :: behind) (2 + server.length + gap.length)
      (2 + server.length + gap.length + share.length) = share := by
    have h := slice_append ([c, d] ++ server ++ gap) share (named.dropWhile (isSeparator · == false))
    rw [List.append_assoc _ share, ← hrest, List.length_append, List.length_append] at h
    rw [hpath]
    exact h
  have hlength : (c :: d :: behind).length = 2 + server.length + gap.length + named.length := by
    rw [hpath]
    simp
    omega
  -- a scan that stops before the end stops at a character the next scan takes
  have hgapped : gap.length = 0 ↔ more = [] := by
    rw [List.length_eq_zero_iff, ← hgap]
    cases more with
    | nil => simp
    | cons e more =>
      have he : isSeparator e = true := by simpa using not_of_dropWhile hmore
      simp [he]
  have hshared : share.length = 0 ↔ named.length = 0 := by
    rw [List.length_eq_zero_iff, List.length_eq_zero_iff, ← hshare]
    cases named with
    | nil => simp
    | cons e named =>
      have he : isSeparator e = false := by simpa using not_of_dropWhile hnamed
      simp [he]
  have hmores : more = [] ↔ gap.length + named.length = 0 := by
    rw [hparts, List.append_eq_nil_iff, ← List.length_eq_zero_iff, ← List.length_eq_zero_iff]
    omega
  have hnames : (more ≠ [] ∧ server ≠ [] ∧ share ≠ []) ↔ gap.length ≠ 0 ∧ server.length ≠ 0 ∧ share.length ≠ 0 := by
    rw [ne_eq, ne_eq, ne_eq, ne_eq, ne_eq, ne_eq, hgapped, List.length_eq_zero_iff, List.length_eq_zero_iff]
  rw [win32Root, if_pos hc, if_neg (by simp [hd])]
  simp only [hfirst, hslice, hsecond, hthird, hslice', hlength]
  by_cases hall : more ≠ [] ∧ server ≠ [] ∧ share ≠ []
  · obtain ⟨hgap', hserver', hshare'⟩ := hnames.mp hall
    rw [if_pos hall, if_pos ⟨by omega, by omega⟩, if_pos ⟨by omega, by omega⟩, if_pos (.inr (by omega))]
  · rw [if_neg hall]
    rw [hnames] at hall
    split_ifs with hone htwo
    · exact absurd ⟨by omega, by omega, by omega⟩ hall
    · rfl
    · rfl
    · rfl

theorem single_of_drive {unit : UInt16} (h : drive unit = true) : Single unit := by
  simp only [drive, Bool.or_eq_true, Bool.and_eq_true, decide_eq_true_eq, UInt16.le_iff_toNat_le] at h
  rw [Single]
  have h90 : (90 : UInt16).toNat = 90 := rfl
  have h122 : (122 : UInt16).toNat = 122 := rfl
  omega

theorem decode16_sep_cons {unit : UInt16} (h : sep unit true = true) (rest : PathUnits) :
    decode16 (unit :: rest) = point unit :: decode16 rest :=
  decode16_at (single_of_sep h) [] rest

/-- Behind two separators the roots are the same. -/
theorem uncRoot_decode16 {first second : UInt16} (hfirst : sep first true = true) (hsecond : sep second true = true)
    (rest : PathUnits) :
    (win32Root (decode16 (first :: second :: rest))).1 = decode16 (uncRoot rest).device ∧
      (decode16 (first :: second :: rest)).drop (win32Root (decode16 (first :: second :: rest))).2.1 =
        decode16 ((first :: second :: rest).drop (uncRoot rest).size) ∧
      (win32Root (decode16 (first :: second :: rest))).2.2 = (uncRoot rest).absolute := by
  obtain ⟨hserver, hmore⟩ := span_decode16 rest
  obtain ⟨hgap, hnamed⟩ := span_sep_decode16 (rest.dropWhile fun unit => !sep unit true)
  obtain ⟨hshare, hbehind⟩ :=
    span_decode16 ((rest.dropWhile fun unit => !sep unit true).dropWhile fun unit => sep unit true)
  have hroot := win32Root_unc ((sepPoint_point first true).trans hfirst) ((sepPoint_point second true).trans hsecond)
    hserver hmore hgap hnamed hshare
  rw [← decode16_sep_cons hsecond, ← decode16_sep_cons hfirst] at hroot
  rw [hroot, uncRoot]
  simp only [drop_takeWhile, ne_eq, decode16_eq_nil]
  by_cases hall : ¬(rest.dropWhile fun unit => !sep unit true) = [] ∧
      ¬(rest.takeWhile fun unit => !sep unit true) = [] ∧
      ¬((rest.dropWhile fun unit => !sep unit true).dropWhile fun unit => sep unit true).takeWhile
        (fun unit => !sep unit true) = []
  · rw [if_pos hall, if_pos ⟨hall.1, hall.2.1⟩, if_pos hall.2.2]
    refine ⟨?_, ?_, rfl⟩
    · rw [List.append_assoc, List.append_assoc, List.append_assoc, List.append_assoc]
      simp only [List.cons_append, List.nil_append]
      rw [decode16_sep_cons (by decide), decode16_sep_cons (by decide), decode16_at (by decide)]
    · rw [decode16_sep_cons hfirst, decode16_sep_cons hsecond, drop_two_add, drop_two_add, ← hserver, drop_takeWhile,
        drop_takeWhile, hmore, ← hgap, drop_takeWhile, drop_takeWhile, hnamed, ← hshare, drop_takeWhile, drop_takeWhile,
        hbehind]
  · rw [if_neg hall]
    split_ifs with hone htwo
    · exact ⟨rfl, rfl, rfl⟩
    · exact absurd ⟨hone.1, hone.2, htwo⟩ hall
    · exact ⟨rfl, rfl, rfl⟩

/-- The roots are the same. -/
theorem win32Root_decode16 (units : PathUnits) :
    (win32Root (decode16 units)).1 = decode16 (root units).device ∧
      (decode16 units).drop (win32Root (decode16 units)).2.1 = decode16 (units.drop (root units).size) ∧
      (win32Root (decode16 units)).2.2 = (root units).absolute := by
  cases units with
  | nil => exact ⟨rfl, rfl, rfl⟩
  | cons first units =>
  cases units with
  | nil =>
    have hpoint : isSeparator (point first) = sep first true := sepPoint_point first true
    rw [show decode16 [first] = [point first] from rfl, win32Root, root, hpoint]
    split_ifs <;> exact ⟨rfl, rfl, rfl⟩
  | cons second rest =>
    cases hfirst : sep first true with
    | true =>
      have hpoint : isSeparator (point first) = true := (sepPoint_point first true).trans hfirst
      have htext := decode16_sep_cons hfirst (second :: rest)
      cases hsecond : sep second true with
      | true =>
        rw [root, if_pos hfirst, if_neg (by simp [hsecond])]
        exact uncRoot_decode16 hfirst hsecond rest
      | false =>
        have hhead := head?_decode16 (second :: rest)
        rw [List.head?_cons, Option.any_some, hsecond] at hhead
        rw [root, if_pos hfirst, if_pos (by simp [hsecond]), htext]
        cases hmore : decode16 (second :: rest) with
        | nil => exact absurd (decode16_eq_nil.mp hmore) (List.cons_ne_nil _ _)
        | cons c text =>
          rw [hmore, List.head?_cons, Option.any_some] at hhead
          rw [win32Root, if_pos hpoint, if_pos (by simp [hhead])]
          exact ⟨rfl, hmore.symm, rfl⟩
    | false =>
      have hhead := head?_decode16 (first :: second :: rest)
      rw [List.head?_cons, Option.any_some, hfirst] at hhead
      cases hdrive : (drive first && second == 58) with
      | true =>
        rw [Bool.and_eq_true, beq_iff_eq] at hdrive
        obtain ⟨hletter, rfl⟩ := hdrive
        have htext : decode16 (first :: 58 :: rest) = point first :: point 58 :: decode16 rest := by
          rw [show decode16 (first :: 58 :: rest) = point first :: decode16 (58 :: rest) from
            decode16_at (single_of_drive hletter) [] _]
          exact congrArg _ (decode16_at (by decide) [] rest)
        rw [htext, List.head?_cons, Option.any_some] at hhead
        rw [root, if_neg (by simp [hfirst]), if_pos (by simp [hletter]), htext, win32Root, if_neg (by simp [hhead]),
          if_pos (by simp [isAsciiAlpha_point, hletter]), head?_decode16]
        have hdevice : [point first, point 58] = decode16 [first, 58] :=
          ((decode16_at (single_of_drive hletter) [] [58]).trans rfl).symm
        cases rest with
        | nil => exact ⟨hdevice, rfl, rfl⟩
        | cons third rest =>
          cases hthird : sep third true with
          | true =>
            rw [List.head?_cons, Option.any_some, if_pos hthird, if_pos hthird, decode16_sep_cons hthird]
            exact ⟨hdevice, rfl, rfl⟩
          | false =>
            rw [List.head?_cons, Option.any_some, if_neg (by simp [hthird]), if_neg (by simp [hthird])]
            exact ⟨hdevice, rfl, rfl⟩
      | false =>
        have hnone : win32Root (decode16 (first :: second :: rest)) = ([], 0, false) := by
          cases htext : decode16 (first :: second :: rest) with
          | nil => rfl
          | cons c text =>
          cases text with
          | nil =>
            rw [htext, List.head?_cons, Option.any_some] at hhead
            rw [win32Root, if_neg (by simp [hhead])]
          | cons d text =>
            rw [htext, List.head?_cons, Option.any_some] at hhead
            rw [win32Root, if_neg (by simp [hhead])]
            refine if_neg fun halpha => ?_
            rw [Bool.and_eq_true, beq_iff_eq] at halpha
            obtain ⟨letter, rfl⟩ := exists_unit_of_isAsciiAlpha halpha.1
            have hunits := toUnits_decode16 (first :: second :: rest)
            rw [htext, halpha.2, toUnits_point_cons, toUnits_point_cons, List.cons.injEq, List.cons.injEq] at hunits
            obtain ⟨rfl, rfl, -⟩ := hunits
            rw [isAsciiAlpha_point] at halpha
            simp [halpha.1] at hdrive
        rw [hnone, root, if_neg (by simp [hfirst]), if_neg (by simp [hdrive])]
        exact ⟨rfl, rfl, rfl⟩

/-- An environment on UTF-16 units, asked and answering in strings. -/
def decodedHost (host : Host PathUnits ε) : Host Text ε where
  inherited device := (host.inherited (Utf16.toUnits device)).map decode16
  processCwd := host.processCwd.map decode16

/-- Lower-casing on UTF-16 units, applied to strings. -/
def decodedLower (lower : PathUnits → PathUnits) (text : Text) : Text := decode16 (lower (Utf16.toUnits text))

/-- A question, in strings. -/
def decodedAsked : Consulted PathUnits → Consulted Text
  | .inherited device => .inherited (decode16 device)
  | .processCwd => .processCwd

/-- The locals of the one resolver as those of the other. -/
def decodedState (s : State) : Resolved where
  device := decode16 s.device
  tail := decode16 s.combined
  absolute := s.absolute

variable {lower : PathUnits → PathUnits} {host : Host PathUnits ε}

theorem decodedLower_decode16_eq_iff (units units' : PathUnits) :
    decodedLower lower (decode16 units) = decodedLower lower (decode16 units') ↔ lower units = lower units' := by
  rw [decodedLower, decodedLower, toUnits_decode16, toUnits_decode16, decode16_injective.eq_iff]

theorem checkedDriveBase_decode16 (device value : PathUnits) :
    checkedDriveBase (decodedLower lower) (decode16 device) (decode16 value) =
      decode16 (checkedBase lower device value) := by
  have hthird : (value.drop 2).take 1 = [92] ↔ value[2]? = some 92 := by
    match value with
    | [] | [_] | [_, _] => simp
    | _ :: _ :: third :: _ => simp
  rw [checkedDriveBase, toUnits_decode16, checkedBase]
  simp only [ne_eq, decodedLower_decode16_eq_iff, hthird]
  split_ifs
  · exact (decode16_at (by decide) device []).symm
  · rfl

/-- The value for a drive is selected and checked the same way. -/
theorem selectDriveBase_decode16 (device : PathUnits) :
    selectDriveBase (decodedLower lower) (decode16 device) (decodedHost host) =
      ((host.selected device).1.map decodedAsked,
        ((host.selected device).2.map (checkedBase lower device)).map decode16) := by
  have hinherited : ((decodedHost host).inherited (decode16 device)).filter (· ≠ []) =
      ((host.inherited device).filter (· ≠ [])).map decode16 := by
    simp only [decodedHost, toUnits_decode16]
    cases host.inherited device with
    | none => rfl
    | some value => by_cases hvalue : value = [] <;> simp [Option.filter, hvalue]
  rw [selectDriveBase, hinherited, Host.selected]
  cases (host.inherited device).filter (· ≠ []) with
  | none =>
    simp only [Option.map_none, decodedHost]
    cases host.processCwd with
    | error e => rfl
    | ok value => simp [Except.map, checkedDriveBase_decode16, decodedAsked]
  | some value => simp [Except.map, checkedDriveBase_decode16, decodedAsked]

/-- One path does the same to both. -/
theorem take_decode16 (s : State) (units : PathUnits) :
    (decodedState s).take (decodedLower lower) (decode16 units) =
      match s.take true lower units with
      | none => (false, decodedState s)
      | some next => (next.done true, decodedState next) := by
  obtain ⟨hdevice, hrest, habsolute⟩ := win32Root_decode16 units
  rw [Resolved.take, State.take]
  rcases hroot : win32Root (decode16 units) with ⟨device, rootEnd, isAbsolute⟩
  rw [hroot] at hdevice hrest habsolute
  simp only at hdevice hrest habsolute
  subst hdevice habsolute
  simp only [parsed, if_true, decodedState, ne_eq, decode16_eq_nil, decodedLower_decode16_eq_iff, slash]
  by_cases hother : ¬(root units).device = [] ∧ ¬s.device = [] ∧ ¬lower s.device = lower (root units).device
  · rw [if_pos hother, if_pos ⟨hother.1, hother.2.1, fun h => hother.2.2 h.symm⟩]
  · rw [if_neg hother, if_neg fun h => hother ⟨h.1, h.2.1, fun h' => h.2.2 h'.symm⟩]
    have htail : (decode16 units).drop rootEnd ++ point 92 :: decode16 s.combined =
        decode16 (units.drop (root units).size ++ 92 :: s.combined) := by
      rw [hrest, decode16_at (by decide)]
    by_cases hfirst : ¬(root units).device = [] ∧ s.device = []
    · rw [if_pos hfirst, if_pos hfirst, htail]
      cases s.absolute <;> simp [State.done, hfirst.1]
    · rw [if_neg hfirst, if_neg hfirst]
      simp only [htail]
      cases s.absolute <;> simp [State.done]

theorem take_getD_decode16 (s : State) (units : PathUnits) :
    ((decodedState s).take (decodedLower lower) (decode16 units)).2 =
      decodedState ((s.take true lower units).getD s) := by
  rw [take_decode16]
  cases s.take true lower units <;> rfl

theorem resolveLoop_decode16 (parts : List PathUnits) (s : State) :
    resolveLoop (decodedLower lower) (decodedHost host) (parts.map decode16) (decodedState s) =
      ((scan true lower host parts s).1.map decodedAsked, (scan true lower host parts s).2.map decodedState) := by
  induction parts generalizing s with
  | nil =>
    rw [List.map_nil, resolveLoop, scan, Host.base]
    by_cases hdevice : s.device = []
    · have : (decodedState s).device = [] := decode16_eq_nil.mpr hdevice
      simp only [this, hdevice, if_true, decodedHost, ne_eq, not_true_eq_false, decide_false, Bool.and_false,
        Bool.false_eq_true, if_false]
      cases host.processCwd with
      | error e => rfl
      | ok value => simp [Except.map, decodedAsked, take_getD_decode16]
    · have : (decodedState s).device ≠ [] := fun h => hdevice (decode16_eq_nil.mp h)
      rw [if_neg this, show (decodedState s).device = decode16 s.device from rfl, selectDriveBase_decode16]
      simp only [hdevice, ne_eq, not_false_eq_true, decide_true, Bool.and_self, if_true]
      cases (host.selected s.device).2 with
      | error e => rfl
      | ok value => simp [Except.map, take_getD_decode16]
  | cons part parts ih =>
    rw [List.map_cons, resolveLoop, scan]
    by_cases hpart : part = []
    · rw [if_pos (decode16_eq_nil.mpr hpart), if_pos hpart]
      exact ih s
    · rw [if_neg fun h => hpart (decode16_eq_nil.mp h), if_neg hpart, take_decode16]
      cases s.take true lower part with
      | none => exact ih s
      | some next =>
        simp only
        split_ifs with hdone
        · rfl
        · exact ih next

theorem finish_decode16 {s : State} (h : s.Open ∨ s.Complete) : (decodedState s).finish = decode16 (s.finish true) := by
  have htail : nodeNormalizeString (decode16 s.combined) (!s.absolute) =
      decode16 (tail s.combined (!s.absolute) true) := by
    rw [nodeNormalizeString_eq, tail, slash, if_pos rfl, text_decode16 (by decide), ← eval_decode16,
      ← components_decode16]
    rfl
  rw [Resolved.finish, State.finish]
  simp only [decodedState, htail]
  cases habsolute : s.absolute with
  | true => simp [slash, decode16_at (show Single 92 by decide)]
  | false =>
    -- a device that is not absolute ends with a colon, so that nothing joins across it
    have happend : decode16 s.device ++ decode16 (tail s.combined true true) =
        decode16 (s.device ++ tail s.combined true true) := by
      have hdevice : s.device = [] ∨ IsDrive s.device :=
        h.elim (·.imp_right And.left) fun hcomplete => absurd (habsolute.symm.trans hcomplete.1) (by decide)
      cases hdevice with
      | inl hnone => simp [hnone]
      | inr hdrive =>
        obtain ⟨letter, hletter, hdevice⟩ := hdrive
        have hcolon := fun rest => decode16_at (show Single 58 by decide) [letter] rest
        rw [hdevice]
        exact ((congrArg (· ++ _) (hcolon [])).trans (by simp)).trans (hcolon _).symm
    simp only [Bool.not_false, Bool.false_eq_true, if_false, List.append_nil, happend, ne_eq, decode16_eq_nil]
    split_ifs with hempty
    · rfl
    · rfl

/-- Both resolvers find the same path and ask the environment the same questions. -/
theorem nodeWin32Resolve_eq (lower : PathUnits → PathUnits) (parts : List PathUnits) (host : Host PathUnits ε) :
    nodeWin32Resolve (decodedLower lower) (parts.map decode16) (decodedHost host) =
      ((resolve parts true lower host).1.map decodedAsked, (resolve parts true lower host).2.map decode16) := by
  have hloop := @resolveLoop_decode16 ε lower host parts.reverse {}
  rw [nodeWin32Resolve, resolve, ← List.map_reverse, show ({} : Resolved) = decodedState {} from rfl, hloop]
  cases hscan : (scan true lower host parts.reverse {}).2 with
  | error e => rfl
  | ok s => simp [Except.map, finish_decode16 (scan_open (.inl rfl) hscan)]

end MinionAgent.NodeWin32
