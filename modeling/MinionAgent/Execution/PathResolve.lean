import MinionAgent.Library.PathStack

/-!
# MinionAgent.Execution.PathResolve

Node's `path.resolve` on JavaScript strings, as `execution/path_resolve.rs` has it:
parts are read from the last to the first until the path is absolute, and on
Windows on a device.

* `resolve` — the path, and what of the environment was consulted for it;
* `resolve_posix` — on POSIX the path is the evaluation of the components of the
  parts from the last absolute one on;
* `resolve_normal` — paths are normal, and stay what they are.
-/

namespace MinionAgent.PathResolve

open PathStack (push up eval Plain components text)

/-- A path, in UTF-16 code units. -/
abbrev PathUnits := List UInt16

/-- `sep`. -/
def sep (unit : UInt16) (windows : Bool) : Bool := unit == 47 || (windows && unit == 92)

/-- The separator that is written. -/
def slash (windows : Bool) : UInt16 := if windows then 92 else 47

/-- `drive`. -/
def drive (unit : UInt16) : Bool := (65 ≤ unit && unit ≤ 90) || (97 ≤ unit && unit ≤ 122)

/-- `Root`: the device, how far the root goes, and whether it is absolute. -/
structure Root where
  device : PathUnits := []
  size : Nat := 0
  absolute : Bool := false
deriving DecidableEq

/-- The root of a path behind two separators: a UNC device where a server and a
share are named. -/
def uncRoot (behind : PathUnits) : Root :=
  let server := behind.takeWhile fun unit => !sep unit true
  let more := behind.drop server.length
  if more ≠ [] ∧ server ≠ [] then
    let gap := more.takeWhile fun unit => sep unit true
    let share := (more.drop gap.length).takeWhile fun unit => !sep unit true
    if share ≠ [] then
      { device := [92, 92] ++ server ++ [92] ++ share
        size := 2 + server.length + gap.length + share.length
        absolute := true }
    else { absolute := true }
  else { absolute := true }

/-- `root`: a drive is recognized at the first unit only. -/
def root : PathUnits → Root
  | [] => {}
  | [first] => if sep first true then { size := 1, absolute := true } else {}
  | first :: second :: rest =>
    if sep first true then
      if !sep second true then { size := 1, absolute := true } else uncRoot rest
    else if drive first && second == 58 then
      if rest.head?.any (sep · true) then { device := [first, second], size := 3, absolute := true }
      else { device := [first, second], size := 2 }
    else {}

/-- `tail`: the components are evaluated on a stack. -/
def tail (path : PathUnits) (aboveRoot windows : Bool) : PathUnits :=
  text (slash windows) (eval 46 aboveRoot (components (sep · windows) path))

/-! ## The environment -/

/-- A question to the environment: the working directory of a drive, or that of the process. -/
inductive Consulted (path : Type)
  | inherited (device : path)
  | processCwd
deriving DecidableEq

/-- What the environment answers; reading the process's working directory may fail. -/
structure Host (path ε : Type) where
  inherited : path → Option path
  processCwd : Except ε path

variable {ε : Type}

/-- The value for a drive, and which questions it takes. -/
def Host.selected (host : Host PathUnits ε) (device : PathUnits) : List (Consulted PathUnits) × Except ε PathUnits :=
  match (host.inherited device).filter (· ≠ []) with
  | some value => ([.inherited device], .ok value)
  | none => ([.inherited device, .processCwd], host.processCwd)

/-- A selected value that is on another drive, with a backslash behind it, gives way to
the root of the drive. -/
def checkedBase (lower : PathUnits → PathUnits) (device selected : PathUnits) : PathUnits :=
  if lower (selected.take 2) ≠ lower device ∧ selected[2]? = some 92 then device ++ [92] else selected

/-- What stands in front of the parts. -/
def Host.base (host : Host PathUnits ε) (windows : Bool) (lower : PathUnits → PathUnits) (device : PathUnits) :
    List (Consulted PathUnits) × Except ε PathUnits :=
  if windows && device ≠ [] then
    ((host.selected device).1, (host.selected device).2.map (checkedBase lower device))
  else ([.processCwd], host.processCwd)

/-! ## Resolution -/

/-- The locals of `resolve`. -/
structure State where
  device : PathUnits := []
  combined : PathUnits := []
  absolute : Bool := false
deriving DecidableEq

/-- The root of one part. -/
def parsed (windows : Bool) (units : PathUnits) : Root :=
  if windows then root units else { absolute := units.head? == some 47 }

/-- One part is put in front, but for one on another device. -/
def State.take (s : State) (windows : Bool) (lower : PathUnits → PathUnits) (units : PathUnits) : Option State :=
  let root := parsed windows units
  if root.device ≠ [] ∧ s.device ≠ [] ∧ lower s.device ≠ lower root.device then none
  else
    let device := if root.device ≠ [] ∧ s.device = [] then root.device else s.device
    if s.absolute then some { s with device }
    else some
      { device
        combined := units.drop root.size ++ slash windows :: s.combined
        absolute := root.absolute }

/-- Nothing in front can change the path. -/
def State.done (s : State) (windows : Bool) : Bool := s.absolute && (!windows || s.device ≠ [])

/-- The parts, the last of them first, and then what stands in front of them. -/
def scan (windows : Bool) (lower : PathUnits → PathUnits) (host : Host PathUnits ε) :
    List PathUnits → State → List (Consulted PathUnits) × Except ε State
  | [], s =>
    let base := host.base windows lower s.device
    (base.1, base.2.map fun path => (s.take windows lower path).getD s)
  | part :: parts, s =>
    if part = [] then scan windows lower host parts s
    else
      match s.take windows lower part with
      | none => scan windows lower host parts s
      | some s => if s.done windows then ([], .ok s) else scan windows lower host parts s

/-- The path that was found. -/
def State.finish (s : State) (windows : Bool) : PathUnits :=
  let result := s.device ++ (if s.absolute then [slash windows] else []) ++ tail s.combined (!s.absolute) windows
  if result = [] then [46] else result

/-- `resolve`, and what was consulted. -/
def resolve (parts : List PathUnits) (windows : Bool) (lower : PathUnits → PathUnits) (host : Host PathUnits ε) :
    List (Consulted PathUnits) × Except ε PathUnits :=
  let found := scan windows lower host parts.reverse {}
  (found.1, found.2.map (·.finish windows))

/-- `is_absolute`. -/
def isAbsolute (path : PathUnits) (windows : Bool) : Bool :=
  if windows then (root path).absolute else path.head? == some 47

/-! ## Roots -/

/-- A drive. -/
def IsDrive (device : PathUnits) : Prop := ∃ letter, drive letter = true ∧ device = [letter, 58]

/-- A share of a server. -/
def IsUnc (device : PathUnits) : Prop :=
  ∃ server share, server ≠ [] ∧ share ≠ [] ∧ (∀ unit ∈ server, sep unit true = false) ∧
    (∀ unit ∈ share, sep unit true = false) ∧ device = [92, 92] ++ server ++ [92] ++ share

/-- A path that starts with a drive or a share, and behind it is absolute. -/
def HasRoot (path : PathUnits) : Prop := (root path).device ≠ [] ∧ (root path).absolute = true

instance : DecidablePred HasRoot := fun _ => inferInstanceAs (Decidable (_ ∧ _))

theorem not_sep_of_mem_takeWhile {path : PathUnits} :
    ∀ unit ∈ path.takeWhile (fun unit => !sep unit true), sep unit true = false := by
  intro unit hunit
  simpa using List.all_eq_true.mp List.all_takeWhile unit hunit

/-- A UNC root has a device where it has a server and a share. -/
theorem uncRoot_device (behind : PathUnits) :
    ((uncRoot behind).device = [] ∨ IsUnc (uncRoot behind).device) ∧ (uncRoot behind).absolute = true := by
  rw [uncRoot]
  simp only []
  split_ifs with hserver hshare
  · refine ⟨.inr ⟨_, _, hserver.2, hshare, ?_, ?_, rfl⟩, rfl⟩
    · exact not_sep_of_mem_takeWhile
    · exact not_sep_of_mem_takeWhile
  · exact ⟨.inl rfl, rfl⟩
  · exact ⟨.inl rfl, rfl⟩

/-- A device is a drive, or a share whose path is absolute. -/
theorem root_device (path : PathUnits) :
    (root path).device = [] ∨ IsDrive (root path).device ∨
      IsUnc (root path).device ∧ (root path).absolute = true := by
  match path with
  | [] => exact .inl rfl
  | [first] =>
    rw [root]
    split_ifs
    · exact .inl rfl
    · exact .inl rfl
  | first :: second :: rest =>
    rw [root]
    split_ifs with hfirst hsecond hdrive
    · exact .inl rfl
    · obtain ⟨hdevice, habsolute⟩ := uncRoot_device rest
      cases hdevice with
      | inl hnone => exact .inl hnone
      | inr hunc => exact .inr (.inr ⟨hunc, habsolute⟩)
    · rw [Bool.and_eq_true, beq_iff_eq] at hdrive
      exact .inr (.inl ⟨first, hdrive.1, by rw [hdrive.2]⟩)
    · rw [Bool.and_eq_true, beq_iff_eq] at hdrive
      exact .inr (.inl ⟨first, hdrive.1, by rw [hdrive.2]⟩)
    · exact .inl rfl

theorem not_sep_of_drive {letter : UInt16} (h : drive letter = true) : sep letter true = false := by
  simp only [drive, Bool.or_eq_true, Bool.and_eq_true, decide_eq_true_eq] at h
  simp only [sep, Bool.true_and, Bool.or_eq_false_iff, beq_eq_false_iff_ne]
  constructor
  · rintro rfl
    revert h
    decide
  · rintro rfl
    revert h
    decide

/-- The root of a drive is found again. -/
theorem root_drive {device : PathUnits} (h : IsDrive device) (rest : PathUnits) :
    root (device ++ 92 :: rest) = { device, size := 3, absolute := true } := by
  obtain ⟨letter, hletter, rfl⟩ := h
  have hsep := not_sep_of_drive hletter
  rw [List.cons_append, List.cons_append, root, if_neg (by simp [hsep])]
  simp [hletter, sep]

/-- The root of a share is found again. -/
theorem root_unc {device : PathUnits} (h : IsUnc device) (rest : PathUnits) :
    root (device ++ 92 :: rest) = { device, size := device.length, absolute := true } := by
  obtain ⟨server, share, hserver, hshare, hservers, hshares, rfl⟩ := h
  have hfirst : (server ++ 92 :: (share ++ 92 :: rest)).takeWhile (fun unit => !sep unit true) = server := by
    rw [List.takeWhile_append_of_pos (by simpa using hservers), List.takeWhile_cons_of_neg (by decide)]
    simp
  have hgap : (92 :: (share ++ 92 :: rest)).takeWhile (fun unit => sep unit true) = [92] := by
    cases share with
    | nil => exact absurd rfl hshare
    | cons unit share =>
      have hunit := hshares unit List.mem_cons_self
      rw [List.takeWhile_cons_of_pos (by decide), List.cons_append, List.takeWhile_cons_of_neg (by simp [hunit])]
  have hsecond : (share ++ 92 :: rest).takeWhile (fun unit => !sep unit true) = share := by
    rw [List.takeWhile_append_of_pos (by simpa using hshares), List.takeWhile_cons_of_neg (by decide)]
    simp
  have hpath : [92, 92] ++ server ++ [92] ++ share ++ 92 :: rest =
      92 :: 92 :: (server ++ 92 :: (share ++ 92 :: rest)) := by simp
  rw [hpath, root, if_pos (by decide), if_neg (by decide), uncRoot]
  simp only [hfirst, List.drop_left, hgap]
  rw [if_pos ⟨by simp, hserver⟩]
  simp only [List.length_singleton, List.drop_one, List.tail_cons, hsecond]
  rw [if_pos hshare]
  simp only [List.length_append, List.length_cons, List.length_nil]

/-! ## Normal paths -/

/-- What stands in front of the root's separator: nothing on POSIX, a device on Windows. -/
def Device (windows : Bool) (device : PathUnits) : Prop :=
  if windows then IsDrive device ∨ IsUnc device else device = []

/-- An absolute path of plain components, with one separator behind the device and one
between two components. -/
def IsNormal (windows : Bool) (path : PathUnits) : Prop :=
  ∃ device cs, Device windows device ∧
    (∀ c ∈ cs, Plain 46 c ∧ ∀ unit ∈ c, sep unit windows = false) ∧
    path = device ++ slash windows :: text (slash windows) cs

@[simp] theorem sep_slash (windows : Bool) : sep (slash windows) windows = true := by cases windows <;> decide

variable {windows : Bool} {lower : PathUnits → PathUnits} {host : Host PathUnits ε}

/-- From a root, the tail of a path has plain components. -/
theorem plain_of_mem_tail {path c : PathUnits} (h : c ∈ eval 46 false (components (sep · windows) path)) :
    Plain 46 c ∧ ∀ unit ∈ c, sep unit windows = false :=
  ⟨PathStack.eval_plain _ c h, PathStack.not_sep_of_mem_components (PathStack.mem_of_mem_eval h).1⟩

variable {s : State} {parts : List PathUnits}

theorem State.finish_absolute (h : s.absolute = true) :
    s.finish windows = s.device ++ slash windows ::
      text (slash windows) (eval 46 false (components (sep · windows) s.combined)) := by
  rw [State.finish]
  simp [h, tail]

theorem State.finish_normal (h : s.absolute = true) (hdevice : Device windows s.device) :
    IsNormal windows (s.finish windows) :=
  ⟨s.device, _, hdevice, fun _ => plain_of_mem_tail, State.finish_absolute h⟩

/-- What the root of a normal path is, and what is behind it. -/
theorem parsed_normal {device : PathUnits} (h : Device windows device) (rest : PathUnits) :
    (parsed windows (device ++ slash windows :: rest)).device = device ∧
      (parsed windows (device ++ slash windows :: rest)).absolute = true ∧
      ((device ++ slash windows :: rest).drop (parsed windows (device ++ slash windows :: rest)).size = rest ∨
        (device ++ slash windows :: rest).drop (parsed windows (device ++ slash windows :: rest)).size =
          slash windows :: rest) := by
  cases windows with
  | false =>
    obtain rfl : device = [] := h
    exact ⟨rfl, rfl, .inr rfl⟩
  | true =>
    cases (show IsDrive device ∨ IsUnc device from h) with
    | inl hdrive =>
      have hroot := root_drive hdrive rest
      obtain ⟨letter, -, rfl⟩ := hdrive
      simp only [parsed, slash, if_true, hroot, true_and]
      exact .inl rfl
    | inr hunc =>
      have hroot := root_unc hunc rest
      simp only [parsed, slash, if_true, hroot, true_and, List.drop_left]
      exact .inr trivial

/-- Written separators part components. -/
theorem components_slash (front rest : PathUnits) :
    components (sep · windows) (front ++ slash windows :: rest) =
      components (sep · windows) front ++ components (sep · windows) rest :=
  @PathStack.components_append _ (sep · windows) _ (sep_slash windows) front rest

theorem eval_slash_cons (rest : PathUnits) :
    eval 46 false (components (sep · windows) (slash windows :: rest)) =
      eval 46 false (components (sep · windows) rest) := by
  rw [show components (sep · windows) (slash windows :: rest) = _ from components_slash [] rest]
  exact PathStack.eval_nil_cons _

theorem eval_concat_slash (rest : PathUnits) :
    eval 46 false (components (sep · windows) (rest ++ [slash windows])) =
      eval 46 false (components (sep · windows) rest) := by
  rw [components_slash, PathStack.components_nil, PathStack.eval_concat_nil]

theorem isAbsolute_of_normal {path : PathUnits} (h : IsNormal windows path) : isAbsolute path windows = true := by
  obtain ⟨device, cs, hdevice, -, rfl⟩ := h
  obtain ⟨-, habsolute, -⟩ := parsed_normal hdevice (text (slash windows) cs)
  cases windows with
  | false => simpa [parsed, isAbsolute] using habsolute
  | true => simpa [parsed, isAbsolute] using habsolute

/-- A normal path is what it resolves to, and nothing is consulted. -/
theorem resolve_of_normal {path : PathUnits} (h : IsNormal windows path) :
    resolve [path] windows lower host = ([], .ok path) := by
  obtain ⟨device, cs, hdevice, hcs, rfl⟩ := h
  obtain ⟨hroot, habsolute, hrest⟩ := parsed_normal hdevice (text (slash windows) cs)
  have hne : device ++ slash windows :: text (slash windows) cs ≠ [] := by simp
  generalize hpath : device ++ slash windows :: text (slash windows) cs = path at *
  have htake : State.take {} windows lower path =
      some { device, combined := path.drop (parsed windows path).size ++ [slash windows], absolute := true } := by
    simp [State.take, hroot, habsolute]
  have hdone : ∀ combined, State.done { device, combined, absolute := true } windows = true := by
    intro combined
    cases windows with
    | false => rfl
    | true =>
      have : device ≠ [] := by
        cases (show IsDrive device ∨ IsUnc device from hdevice) with
        | inl hdrive =>
          obtain ⟨letter, -, rfl⟩ := hdrive
          simp
        | inr hunc =>
          obtain ⟨server, share, -, -, -, -, rfl⟩ := hunc
          simp
      simp [State.done, this]
  have heval : eval 46 false (components (sep · windows) (path.drop (parsed windows path).size ++ [slash windows])) =
      cs := by
    have htext : eval 46 false (components (sep · windows) (text (slash windows) cs)) = cs :=
      PathStack.eval_components_text (sep_slash windows) (fun c hc => (hcs c hc).1) fun c hc => (hcs c hc).2
    rw [eval_concat_slash]
    cases hrest with
    | inl h => rw [h, htext]
    | inr h => rw [h, eval_slash_cons, htext]
  rw [resolve, List.reverse_singleton, scan, if_neg hne, htake]
  simp only [hdone, if_true]
  rw [Except.map, State.finish_absolute rfl, heval, hpath]

/-! ## Windows -/

/-- A value for a drive that is on it, or gives way to its root. -/
def OnDrive (lower : PathUnits → PathUnits) (device value : PathUnits) : Prop :=
  HasRoot value ∧ (lower (root value).device = lower device ∨ value[2]? = some 92)

/-- What is consulted is known, has a root and, where it is consulted for a drive, is
usable there. -/
def Grounded (lower : PathUnits → PathUnits) (host : Host PathUnits ε) : List (Consulted PathUnits) → Prop
  | [] => True
  | .inherited device :: _ => ∃ value, (host.selected device).2 = .ok value ∧ OnDrive lower device value
  | .processCwd :: _ => ∃ value, host.processCwd = .ok value ∧ HasRoot value

/-- Before the path is complete, there is no device or a drive the path is relative to. -/
def State.Open (s : State) : Prop := s.device = [] ∨ IsDrive s.device ∧ s.absolute = false

/-- The path is absolute and on a device. -/
def State.Complete (s : State) : Prop := s.absolute = true ∧ (IsDrive s.device ∨ IsUnc s.device)

theorem IsDrive.ne_nil {device : PathUnits} (h : IsDrive device) : device ≠ [] := by
  obtain ⟨letter, -, rfl⟩ := h
  simp

theorem IsUnc.ne_nil {device : PathUnits} (h : IsUnc device) : device ≠ [] := by
  obtain ⟨server, share, -, -, -, -, rfl⟩ := h
  simp

theorem State.Complete.done (h : s.Complete) : s.done true = true := by
  obtain ⟨habsolute, hdevice⟩ := h
  have hne : s.device ≠ [] := hdevice.elim IsDrive.ne_nil IsUnc.ne_nil
  simp [State.done, habsolute, hne]

/-- The first device that is found is taken, and completes an absolute path. -/
theorem State.take_first (h : s.device = []) (lower : PathUnits → PathUnits) (units : PathUnits) :
    ∃ s', s.take true lower units = some s' ∧ s'.device = (root units).device ∧
      s'.absolute = (s.absolute || (root units).absolute) := by
  by_cases hdevice : (root units).device = []
  · cases habsolute : s.absolute <;> simp [State.take, parsed, h, hdevice, habsolute]
  · cases habsolute : s.absolute <;> simp [State.take, parsed, h, hdevice, habsolute]

/-- On a drive, a part of another device is passed over, and another says whether the path is absolute. -/
theorem State.take_drive (h : IsDrive s.device) (habsolute : s.absolute = false) (lower : PathUnits → PathUnits)
    (units : PathUnits) :
    s.take true lower units = none ∧ (root units).device ≠ [] ∧ lower s.device ≠ lower (root units).device ∨
      ∃ s', s.take true lower units = some s' ∧ s'.device = s.device ∧ s'.absolute = (root units).absolute := by
  have hne := h.ne_nil
  by_cases hother : (root units).device ≠ [] ∧ lower s.device ≠ lower (root units).device
  · refine .inl ⟨?_, hother⟩
    simp [State.take, parsed, hne, hother]
  · refine .inr ⟨{ s with
      combined := units.drop (root units).size ++ 92 :: s.combined, absolute := (root units).absolute }, ?_, rfl, rfl⟩
    rw [State.take]
    simp only [parsed, if_true, ne_eq, hne, not_false_eq_true, true_and, and_false, if_false, habsolute,
      Bool.false_eq_true, slash]
    rw [if_neg hother]

theorem State.take_open {s s' : State} {units : PathUnits} (hopen : s.Open) (h : s.take true lower units = some s') :
    s'.Open ∨ s'.Complete := by
  cases hopen with
  | inl hnone =>
    obtain ⟨s'', htake, hdevice, habsolute⟩ := State.take_first hnone lower units
    obtain rfl : s' = s'' := Option.some.inj (h.symm.trans htake)
    cases root_device units with
    | inl hempty => exact .inl (.inl (hdevice.trans hempty))
    | inr hsome =>
      rw [← hdevice] at hsome
      cases hsome with
      | inl hdrive =>
        cases hfinal : s'.absolute with
        | false => exact .inl (.inr ⟨hdrive, hfinal⟩)
        | true => exact .inr ⟨hfinal, .inl hdrive⟩
      | inr hunc => exact .inr ⟨by rw [habsolute, hunc.2, Bool.or_true], .inr hunc.1⟩
  | inr hdrive =>
    cases State.take_drive hdrive.1 hdrive.2 lower units with
    | inl hother => exact nomatch h.symm.trans hother.1
    | inr hsome =>
      obtain ⟨s'', htake, hdevice, habsolute⟩ := hsome
      obtain rfl : s' = s'' := Option.some.inj (h.symm.trans htake)
      cases hfinal : s'.absolute with
      | false => exact .inl (.inr ⟨hdevice ▸ hdrive.1, hfinal⟩)
      | true => exact .inr ⟨hfinal, .inl (hdevice ▸ hdrive.1)⟩

/-- A path with a root and a backslash at the third unit is on a drive. -/
theorem root_device_of_third {value : PathUnits} (h : HasRoot value) (hthird : value[2]? = some 92) :
    (root value).device = value.take 2 := by
  match value, hthird with
  | first :: second :: third :: rest, hthird =>
    obtain rfl : third = 92 := by simpa using hthird
    obtain ⟨hne, -⟩ := h
    rw [root] at hne ⊢
    split_ifs at hne ⊢ with hfirst hsecond hdrive
    · exact absurd rfl hne
    · exact absurd rfl hne
    · rfl
    · rfl
    · exact absurd rfl hne

/-- A grounded value completes the path. -/
theorem State.take_base (hopen : s.Open) (hground : Grounded lower host (host.base true lower s.device).1) :
    ∃ path s', (host.base true lower s.device).2 = .ok path ∧ s.take true lower path = some s' ∧ s'.Complete := by
  cases hopen with
  | inl hnone =>
    simp only [Host.base, hnone, ne_eq, not_true_eq_false, decide_false, Bool.and_false, Bool.false_eq_true,
      if_false] at hground ⊢
    obtain ⟨value, hvalue, hne, habsolute⟩ := hground
    obtain ⟨s', htake, hdevice, hfinal⟩ := State.take_first hnone lower value
    refine ⟨value, s', hvalue, htake, by rw [hfinal, habsolute, Bool.or_true], ?_⟩
    rw [hdevice]
    exact (root_device value).elim (absurd · hne) fun h => h.imp_right And.left
  | inr hdrive =>
    obtain ⟨hdrive, hrelative⟩ := hdrive
    have hne := hdrive.ne_nil
    have hasked : ∃ asked, (host.selected s.device).1 = .inherited s.device :: asked := by
      rw [Host.selected]
      split
      · exact ⟨_, rfl⟩
      · exact ⟨_, rfl⟩
    obtain ⟨asked, hasked⟩ := hasked
    simp only [Host.base, hne, ne_eq, not_false_eq_true, decide_true, Bool.and_self, if_true, hasked] at hground ⊢
    obtain ⟨value, hvalue, hroot, hon⟩ := hground
    -- either way the path has a root, on a device that counts as this one
    have hbase : (root (checkedBase lower s.device value)).absolute = true ∧
        lower (root (checkedBase lower s.device value)).device = lower s.device := by
      rw [checkedBase]
      split_ifs with hother
      · rw [root_drive hdrive]
        exact ⟨rfl, rfl⟩
      · refine ⟨hroot.2, ?_⟩
        cases hon with
        | inl hsame => exact hsame
        | inr hthird =>
          rw [root_device_of_third hroot hthird]
          by_contra hlower
          exact hother ⟨hlower, hthird⟩
    rw [hvalue]
    refine ⟨checkedBase lower s.device value, ?_⟩
    cases State.take_drive hdrive hrelative lower (checkedBase lower s.device value) with
    | inl hother => exact absurd hbase.2.symm hother.2.2
    | inr hsome =>
      obtain ⟨s', htake, hdevice, habsolute⟩ := hsome
      exact ⟨s', rfl, htake, habsolute.trans hbase.1, .inl (hdevice ▸ hdrive)⟩

/-- Whatever is consulted, a path that is not complete is on no device or relative to a drive. -/
theorem scan_open {s s' : State} (hopen : s.Open) (h : (scan true lower host parts s).2 = .ok s') :
    s'.Open ∨ s'.Complete := by
  induction parts generalizing s with
  | nil =>
    rw [scan] at h
    cases hbase : (host.base true lower s.device).2 with
    | error e => simp [hbase, Except.map] at h
    | ok path =>
      simp only [hbase, Except.map, Except.ok.injEq] at h
      subst h
      cases htake : s.take true lower path with
      | none => exact .inl hopen
      | some next => exact State.take_open hopen htake
  | cons part parts ih =>
    rw [scan] at h
    split_ifs at h with hempty
    · exact ih hopen h
    · cases htake : s.take true lower part with
      | none =>
        rw [htake] at h
        exact ih hopen h
      | some next =>
        rw [htake] at h
        simp only at h
        have hnext := State.take_open hopen htake
        split_ifs at h with hdone
        · obtain rfl : next = s' := Except.ok.inj h
          exact hnext
        · exact ih (hnext.elim id fun hcomplete => absurd hcomplete.done hdone) h

/-- On grounded values the scan ends with a complete path. -/
theorem scan_windows (hopen : s.Open) (hground : Grounded lower host (scan true lower host parts s).1) :
    ∃ s', (scan true lower host parts s).2 = .ok s' ∧ s'.Complete := by
  induction parts generalizing s with
  | nil =>
    obtain ⟨path, s', hpath, htake, hcomplete⟩ := State.take_base hopen hground
    refine ⟨s', ?_, hcomplete⟩
    rw [scan]
    simp only [hpath, Except.map, htake, Option.getD_some]
  | cons part parts ih =>
    rw [scan] at hground ⊢
    split_ifs at hground ⊢ with hempty
    · exact ih hopen hground
    · cases htake : s.take true lower part with
      | none =>
        rw [htake] at hground
        exact ih hopen hground
      | some s' =>
        rw [htake] at hground
        simp only at hground ⊢
        split_ifs at hground ⊢ with hdone
        · refine ⟨s', rfl, (State.take_open hopen htake).elim (fun h => ?_) id⟩
          rw [State.done, Bool.and_eq_true] at hdone
          cases h with
          | inl hnone => simp [hnone] at hdone
          | inr hdrive => simp [hdrive.2] at hdone
        · exact ih ((State.take_open hopen htake).elim id fun h => absurd h.done hdone) hground

theorem resolve_windows (hground : Grounded lower host (resolve parts true lower host).1) :
    ∃ path, (resolve parts true lower host).2 = .ok path ∧ IsNormal true path := by
  obtain ⟨s, hscan, habsolute, hdevice⟩ := scan_windows (.inl rfl) hground
  refine ⟨s.finish true, ?_, State.finish_normal habsolute hdevice⟩
  rw [resolve]
  simp only [hscan, Except.map]

/-! ## POSIX -/

/-- The parts from the last absolute one on. -/
def fromLastAbsolute : List PathUnits → List PathUnits
  | [] => []
  | part :: parts => if parts.any (isAbsolute · false) then fromLastAbsolute parts else part :: parts

/-- The components of parts, one part after the other. -/
def partComponents (parts : List PathUnits) : List (List UInt16) := parts.flatMap (components (sep · false))

theorem fromLastAbsolute_append {more : List PathUnits} (h : more.any (isAbsolute · false) = true)
    (parts : List PathUnits) :
    fromLastAbsolute (parts ++ more) = fromLastAbsolute more := by
  induction parts with
  | nil => rfl
  | cons first parts ih => rw [List.cons_append, fromLastAbsolute, List.any_append, h, Bool.or_true, if_pos rfl, ih]

theorem fromLastAbsolute_append_relative {parts more : List PathUnits} (hmore : more.any (isAbsolute · false) = false)
    (h : parts.any (isAbsolute · false) = true) :
    fromLastAbsolute (parts ++ more) = fromLastAbsolute parts ++ more := by
  induction parts with
  | nil => simp at h
  | cons first parts ih =>
    rw [List.cons_append, fromLastAbsolute, fromLastAbsolute, List.any_append, hmore, Bool.or_false]
    split_ifs with hrest
    · exact ih hrest
    · rfl

theorem take_posix (lower : PathUnits → PathUnits) (s : State) (units : PathUnits) :
    State.take { s with device := [], absolute := false } false lower units =
      some { device := [], combined := units ++ 47 :: s.combined, absolute := isAbsolute units false } := by
  simp [State.take, parsed, isAbsolute, slash]

/-- The scan stops at the last absolute part, and has the components from there on. -/
theorem scan_posix (h : parts.any (isAbsolute · false) = true) (lower : PathUnits → PathUnits)
    (host : Host PathUnits ε) (combined : PathUnits) :
    ∃ all, scan false lower host parts.reverse { combined } = ([], .ok { combined := all, absolute := true }) ∧
      eval 46 false (components (sep · false) all) =
        eval 46 false (partComponents (fromLastAbsolute parts) ++ components (sep · false) combined) := by
  induction parts using List.reverseRecOn generalizing combined with
  | nil => simp at h
  | append_singleton parts part ih =>
    rw [List.reverse_append, List.reverse_singleton, List.singleton_append, scan]
    have htake := take_posix lower { combined } part
    have hcomponents : components (sep · false) (part ++ 47 :: combined) =
        components (sep · false) part ++ components (sep · false) combined :=
      @components_slash false part combined
    cases hpart : isAbsolute part false with
    | true =>
      have hne : part ≠ [] := by
        rintro rfl
        simp [isAbsolute] at hpart
      rw [hpart] at htake
      refine ⟨part ++ 47 :: combined, ?_, ?_⟩
      · rw [if_neg hne, htake]
        rfl
      · rw [fromLastAbsolute_append (by simpa using hpart), hcomponents, partComponents]
        simp [fromLastAbsolute]
    | false =>
      have hrest : parts.any (isAbsolute · false) = true := by simpa [hpart] using h
      rw [hpart] at htake
      rw [fromLastAbsolute_append_relative (by simpa using hpart) hrest, partComponents, List.flatMap_append,
        List.flatMap_singleton, List.append_assoc]
      by_cases hempty : part = []
      · subst hempty
        obtain ⟨all, hall, heval⟩ := ih hrest combined
        refine ⟨all, by rw [if_pos rfl, hall], ?_⟩
        rw [heval, partComponents, eval, eval, List.foldl_append, List.foldl_append, PathStack.components_nil,
          List.foldl_append, List.foldl_cons, List.foldl_nil]
        simp [push]
      · obtain ⟨all, hall, heval⟩ := ih hrest (part ++ 47 :: combined)
        refine ⟨all, ?_, by rw [heval, hcomponents, partComponents]⟩
        rw [if_neg hempty, htake]
        simpa [State.done] using hall

/-- On POSIX, parts of which one is absolute are evaluated from the last absolute one on. -/
theorem resolve_posix (h : parts.any (isAbsolute · false) = true) :
    resolve parts false lower host =
      ([], .ok (47 :: text 47 (eval 46 false (partComponents (fromLastAbsolute parts))))) := by
  obtain ⟨all, hall, heval⟩ := scan_posix h lower host []
  rw [PathStack.components_nil, PathStack.eval_concat_nil] at heval
  rw [resolve, hall, Except.map, State.finish_absolute rfl, heval]
  rfl

theorem plain_of_mem_parts {c : List UInt16} (h : c ∈ eval 46 false (partComponents parts)) :
    Plain 46 c ∧ ∀ unit ∈ c, sep unit false = false := by
  refine ⟨PathStack.eval_plain _ c h, ?_⟩
  obtain ⟨part, -, hc⟩ := List.mem_flatMap.mp (PathStack.mem_of_mem_eval h).1
  exact PathStack.not_sep_of_mem_components hc

/-- Components come back from a normal path. -/
theorem eval_components_normal {cs : List (List UInt16)}
    (h : ∀ c ∈ cs, Plain 46 c ∧ ∀ unit ∈ c, sep unit windows = false) :
    eval 46 false (components (sep · windows) (slash windows :: text (slash windows) cs)) = cs := by
  rw [eval_slash_cons]
  exact PathStack.eval_components_text (sep_slash windows) (fun c hc => (h c hc).1) fun c hc => (h c hc).2

/-- What the first parts resolve to may stand for them. -/
theorem resolve_posix_append (h : parts.any (isAbsolute · false) = true) (more : List PathUnits) :
    ∃ path, resolve parts false lower host = ([], .ok path) ∧
      resolve (path :: more) false lower host = resolve (parts ++ more) false lower host := by
  refine ⟨_, resolve_posix h, ?_⟩
  have hpath : eval 46 false (components (sep · false) (47 :: text 47 (eval 46 false
      (partComponents (fromLastAbsolute parts))))) = eval 46 false (partComponents (fromLastAbsolute parts)) :=
    @eval_components_normal false _ fun _ => plain_of_mem_parts
  rw [resolve_posix (by simp [isAbsolute]), resolve_posix (by simp [h])]
  cases hmore : more.any (isAbsolute · false) with
  | true => rw [fromLastAbsolute_append hmore, fromLastAbsolute, hmore, if_pos rfl]
  | false =>
    have hcons : ∀ path : PathUnits, partComponents (path :: more) =
        components (sep · false) path ++ partComponents more := fun path => by simp [partComponents]
    have hparts : partComponents (fromLastAbsolute parts ++ more) =
        partComponents (fromLastAbsolute parts) ++ partComponents more := by simp [partComponents]
    rw [fromLastAbsolute_append_relative hmore h, fromLastAbsolute, hmore, if_neg (by decide), hcons, hparts,
      ← PathStack.eval_append, hpath, PathStack.eval_append]

/-! ## Normal forms -/

/-- Absolute POSIX parts resolve to the evaluation of their components from the last
absolute part on, Windows parts on grounded values to a path on a device; the path is
normal, and resolves to itself with nothing consulted. -/
theorem resolve_normal (lower : PathUnits → PathUnits) (host : Host PathUnits ε) :
    (∀ first rest, isAbsolute first false = true →
      let path := 47 :: text 47 (eval 46 false (partComponents (fromLastAbsolute (first :: rest))))
      resolve (first :: rest) false lower host = ([], .ok path) ∧
        isAbsolute path false = true ∧ IsNormal false path ∧
        ∀ host' : Host PathUnits ε, resolve [path] false lower host' = ([], .ok path)) ∧
    (∀ parts, Grounded lower host (resolve parts true lower host).1 →
      ∃ path, (resolve parts true lower host).2 = .ok path ∧
        isAbsolute path true = true ∧ IsNormal true path ∧
        ∀ host' : Host PathUnits ε, resolve [path] true lower host' = ([], .ok path)) ∧
    (∀ a b c, isAbsolute a false = true →
      ∃ ab, resolve [a, b] false lower host = ([], .ok ab) ∧
        resolve [ab, c] false lower host = resolve [a, b, c] false lower host) := by
  refine ⟨fun first rest hfirst => ?_, fun parts hground => ?_, fun a b c ha => ?_⟩
  · have hnormal :
        IsNormal false (47 :: text 47 (eval 46 false (partComponents (fromLastAbsolute (first :: rest))))) :=
      ⟨[], _, rfl, fun _ => plain_of_mem_parts, rfl⟩
    have hany : (first :: rest).any (isAbsolute · false) = true := by rw [List.any_cons, hfirst, Bool.true_or]
    exact ⟨resolve_posix hany, isAbsolute_of_normal hnormal, hnormal, fun _ => resolve_of_normal hnormal⟩
  · obtain ⟨path, hpath, hnormal⟩ := resolve_windows hground
    exact ⟨path, hpath, isAbsolute_of_normal hnormal, hnormal, fun _ => resolve_of_normal hnormal⟩
  · exact resolve_posix_append (by simp [ha]) [c]

/-- An environment of POSIX paths, and one whose drives have directories. -/
def home : Host PathUnits Unit where
  inherited device := if device = [67, 58] then some [67, 58, 92, 120] else none
  processCwd := .ok [68, 58, 47, 121]

/-- `/a`, `..`, `b`; and `C:b`. -/
theorem resolve_normal_home :
    resolve [[47, 97], [46, 46], [98]] false id home = ([], .ok [47, 98]) ∧
      (∃ path, (resolve [[67, 58, 98]] true id home).2 = .ok path ∧ isAbsolute path true = true) ∧
      ∃ ab, resolve [[47, 97], [46, 46]] false id home = ([], .ok ab) ∧
        resolve [ab, [98]] false id home = resolve [[47, 97], [46, 46], [98]] false id home := by
  obtain ⟨hposix, hwindows, happend⟩ := resolve_normal id home
  refine ⟨(hposix [47, 97] [[46, 46], [98]] rfl).1.trans (by decide), ?_, happend [47, 97] [46, 46] [98] rfl⟩
  have hground : Grounded id home (resolve [[67, 58, 98]] true id home).1 := by
    rw [show (resolve [[67, 58, 98]] true id home).1 = [.inherited [67, 58]] by decide]
    exact ⟨[67, 58, 92, 120], by decide, by decide, .inl (by decide)⟩
  obtain ⟨path, hpath, habsolute, -⟩ := hwindows [[67, 58, 98]] hground
  exact ⟨path, hpath, habsolute⟩

/-- A drive whose directory is on a share. -/
def shared : Host PathUnits Unit where
  inherited device := if device = [67, 58] then some [92, 92, 115, 92, 116] else none
  processCwd := .ok [67, 58, 92]

/-- `C:a` stays as it is, and consults the environment again, though every value is absolute. -/
theorem resolve_shared :
    (∀ value, shared.inherited [67, 58] = some value → HasRoot value) ∧
      resolve [[67, 58, 97]] true id shared = ([.inherited [67, 58]], .ok [67, 58, 97]) ∧
      isAbsolute [67, 58, 97] true = false := by
  refine ⟨fun value hvalue => ?_, by decide, by decide⟩
  obtain rfl : [92, 92, 115, 92, 116] = value := by simpa [shared] using hvalue
  decide

end MinionAgent.PathResolve
