import MinionAgent.Library.Loop
import Mathlib.Data.List.Basic
import Mathlib.Tactic.Common

/-!
# MinionAgent.Execution.Mkdirp

Recursive directory creation: the walk of `_node_mkdirp`
(`execution/filesystem.py`) and of `node_mkdirp_with`
(`execution/filesystem.rs`).

* `Mkdirs` — a file system, as the walk sees it;
* `PathText.dirname` — Python's parent of a path, by its text;
* `mkdirpStep`, `Rust.mkdirpStep` — one turn of either walk;
* `Mkdirs.make` — what the walk makes of a path under a root that exists;
* `mkdirp_sound_iff` — when the two walks do what they are for.
-/

namespace MinionAgent

/-! ## Paths -/

/-- The text before the last separator (`rfind`). -/
def rfindCut (isSep : Char → Bool) : List Char → Option (List Char)
  | [] => none
  | c :: text =>
    match rfindCut isSep text with
    | some before => some (c :: before)
    | none => if isSep c then some [] else none

/-- `current[:cut] if cut >= 0 else current`. -/
def textDirname (isSep : Char → Bool) (current : List Char) : List Char := (rfindCut isSep current).getD current

/-- A path, by what its text says: the names below a root, the last one first,
or any other text. -/
inductive PathText
  | below (names : List (List Char))
  | other (text : List Char)
deriving DecidableEq

/-- The root of a path: the text before its own separator (on POSIX none, on
Windows a drive or a share), and what separates names. -/
structure PathRoot where
  drive : List Char
  isSep : Char → Bool

/-- Python's parent of a path, the text before its last separator.  That of the
root, and of a name in it, is the drive without its separator. -/
def PathText.dirname (root : PathRoot) : PathText → PathText
  | below [] => other root.drive
  | below [_] => other root.drive
  | below (_ :: names) => below names
  | other text => other (textDirname root.isSep text)

/-! ## The file system -/

/-- What is at a path: a file, a directory (or a link to either), or a link
that leads nowhere. -/
inductive Component
  | file
  | directory
  | dangling
deriving DecidableEq

/-- How a call fails. -/
inductive MkdirError
  | notFound
  | alreadyExists
  | permissionDenied
  | notDirectory
  | other (code : Nat)
deriving DecidableEq

/-- What a directory cannot be made for, although its parent is one. -/
inductive MkdirRefusal
  | permissionDenied
  | other (code : Nat)
deriving DecidableEq

def MkdirRefusal.error : MkdirRefusal → MkdirError
  | permissionDenied => .permissionDenied
  | other code => .other code

/-- The names of a path below the root, the last one first. -/
abbrev Names := List (List Char)

/-- The file system before the call: what is at each path below the root, which
paths no directory can be made at, and what the calls answer on texts that are
no such path. -/
structure Mkdirs where
  root : PathRoot
  /-- What is at a path, if anything is. -/
  kind : Names → Option Component
  /-- Why no directory can be made at a path, if none can. -/
  refusal : Names → Option MkdirRefusal
  otherMkdir : List Char → Except MkdirError Unit
  otherStat : List Char → Except MkdirError Component
  /-- Only a directory is at the root, and entries are in directories. -/
  kind_root : ∀ component, kind [] = some component → component = .directory
  kind_cons : ∀ name names, (kind (name :: names)).isSome → kind names = some .directory

namespace Mkdirs

variable (fs : Mkdirs) (created : List Names)

/-- What is at a path now. -/
def now (names : Names) : Option Component := if names ∈ created then some .directory else fs.kind names

/-- `mkdir`, with the directories created after it. -/
def mkdir : PathText → Except MkdirError (List Names)
  | .other text => (fs.otherMkdir text).map fun _ => created
  | .below names =>
    match fs.now created names, names with
    | some _, _ => .error .alreadyExists
    | none, [] => .error .notFound
    | none, name :: parent =>
      match fs.now created parent with
      | none | some .dangling => .error .notFound
      | some .file => .error .notDirectory
      | some .directory =>
        match fs.refusal (name :: parent) with
        | some refusal => .error refusal.error
        | none => .ok ((name :: parent) :: created)

/-- `stat`, which follows links. -/
def stat : PathText → Except MkdirError Component
  | .other text => fs.otherStat text
  | .below names =>
    match fs.now created names with
    | none | some .dangling => .error .notFound
    | some component => .ok component

end Mkdirs

/-! ## The walks -/

/-- A failure, with the path the walk was at. -/
structure MkdirFailure where
  error : MkdirError
  path : PathText
deriving DecidableEq

/-- A walk between two turns: its stack, the next path first, and the
directories created. -/
structure MkdirWalk where
  stack : List PathText
  created : List Names := []

/-- Node's default branch: `stat` of the path the walk is at. -/
def inspect (fs : Mkdirs) (walk : MkdirWalk) (current : PathText) (error : MkdirError) :
    MkdirWalk ⊕ (Except MkdirFailure Unit × List Names) :=
  let intermediate : Bool := error == .alreadyExists && !walk.stack.isEmpty
  match fs.stat walk.created current with
  | .error statError =>
    if intermediate then .inr (.error ⟨.notDirectory, current⟩, walk.created)
    else .inr (.error ⟨statError, current⟩, walk.created)
  | .ok .directory => if intermediate then .inl walk else .inr (.ok (), walk.created)
  | .ok _ =>
    if intermediate then .inr (.error ⟨.notDirectory, current⟩, walk.created)
    else .inr (.error ⟨.alreadyExists, current⟩, walk.created)

/-- One turn of `_node_mkdirp`. -/
def mkdirpStep (fs : Mkdirs) (walk : MkdirWalk) : MkdirWalk ⊕ (Except MkdirFailure Unit × List Names) :=
  match walk.stack with
  | [] => .inr (.ok (), walk.created)
  | current :: stack =>
    match fs.mkdir walk.created current with
    | .ok created => .inl { stack, created }
    | .error .permissionDenied => .inr (.error ⟨.permissionDenied, current⟩, walk.created)
    | .error .notDirectory => .inr (.error ⟨.notDirectory, current⟩, walk.created)
    | .error .notFound =>
      let dirname := current.dirname fs.root
      if dirname ≠ current then .inl { walk with stack := dirname :: current :: stack }
      else if stack ≠ [] then .inl { walk with stack }
      else inspect fs { walk with stack } current .alreadyExists
    | .error error => inspect fs { walk with stack } current error

/-- `Path::parent` of a normalized absolute path. -/
def Rust.parent : PathText → Option PathText
  | .below (_ :: names) => some (.below names)
  | _ => none

/-- One turn of `node_mkdirp_with`. -/
def Rust.mkdirpStep (fs : Mkdirs) (walk : MkdirWalk) : MkdirWalk ⊕ (Except MkdirFailure Unit × List Names) :=
  match walk.stack with
  | [] => .inr (.ok (), walk.created)
  | current :: stack =>
    match fs.mkdir walk.created current with
    | .ok created => .inl { stack, created }
    | .error .notFound =>
      match Rust.parent current with
      | none => .inr (.error ⟨.notFound, current⟩, walk.created)
      | some parent => .inl { walk with stack := parent :: current :: stack }
    | .error .permissionDenied => .inr (.error ⟨.permissionDenied, current⟩, walk.created)
    | .error .notDirectory => .inr (.error ⟨.notDirectory, current⟩, walk.created)
    | .error error =>
      let originalExists : Bool := error == .alreadyExists
      match fs.stat walk.created current with
      | .ok .directory =>
        if !originalExists || stack.isEmpty then .inr (.ok (), walk.created) else .inl { walk with stack }
      | .ok _ =>
        if originalExists && !stack.isEmpty then .inr (.error ⟨.notDirectory, current⟩, walk.created)
        else .inr (.error ⟨.alreadyExists, current⟩, walk.created)
      | .error statError =>
        if originalExists && !stack.isEmpty then .inr (.error ⟨.notDirectory, current⟩, walk.created)
        else .inr (.error ⟨statError, current⟩, walk.created)

/-! ## A root that exists -/

/-- What is reported of a refusal: an error that is not known is looked into by
`stat`, which finds nothing. -/
def MkdirRefusal.reported : MkdirRefusal → MkdirError
  | permissionDenied => .permissionDenied
  | other _ => .notFound

/-- What a walk makes of a path that has to be a directory: nothing of one that
exists, and else its parent first. -/
def Mkdirs.make (fs : Mkdirs) : Names → Except MkdirFailure Unit × List Names
  | [] => (.ok (), [])
  | name :: parent =>
    match fs.kind (name :: parent) with
    | some .directory => (.ok (), [])
    | some _ => (.error ⟨.notDirectory, .below (name :: parent)⟩, [])
    | none =>
      if fs.kind parent = some .file then (.error ⟨.notDirectory, .below (name :: parent)⟩, [])
      else
        match fs.make parent with
        | (.error failure, created) => (.error failure, created)
        | (.ok (), created) =>
          match fs.refusal (name :: parent) with
          | some refusal => (.error ⟨refusal.reported, .below (name :: parent)⟩, created)
          | none => (.ok (), (name :: parent) :: created)

/-- What was made for a path: missing ancestors of it, all of them when it is a
directory then, and only those of the path of a failure. -/
structure Made (fs : Mkdirs) (names : Names) (result : Except MkdirFailure Unit) (created : List Names) : Prop where
  above : ∀ x ∈ created, x <:+ names ∧ fs.kind x = none
  directory : result = .ok () → fs.now created names = some .directory
  complete : result = .ok () → ∀ x, x <:+ names → fs.kind x = none → x ∈ created
  failed : ∀ failure, result = .error failure →
    ∃ q, failure.path = .below q ∧ q <:+ names ∧ ∀ x ∈ created, x <:+ q ∧ x ≠ q

variable {fs : Mkdirs}

/-- Nothing above an entry is missing. -/
theorem Mkdirs.isSome_of_suffix {x names : Names} (h : x <:+ names) (hnames : (fs.kind names).isSome) :
    (fs.kind x).isSome := by
  induction names with
  | nil => rwa [List.suffix_nil.mp h]
  | cons name names ih =>
    rcases List.suffix_cons_iff.mp h with rfl | h
    · exact hnames
    · exact ih h (by simp [fs.kind_cons name names hnames])

theorem Made.existing {names : Names} (h : fs.kind names = some .directory) : Made fs names (.ok ()) [] where
  above _ hx := absurd hx List.not_mem_nil
  directory _ := by simp [Mkdirs.now, h]
  complete _ x hx hmissing := by
    have hsome : (fs.kind x).isSome := Mkdirs.isSome_of_suffix hx (by simp [h])
    simp [hmissing] at hsome
  failed _ h := by cases h

theorem Made.failing {names : Names} (error : MkdirError) : Made fs names (.error ⟨error, .below names⟩) [] where
  above _ hx := absurd hx List.not_mem_nil
  directory h := by cases h
  complete h := by cases h
  failed failure h := by
    cases h
    exact ⟨names, rfl, List.suffix_rfl, fun _ hx => absurd hx List.not_mem_nil⟩

theorem ne_of_suffix_parent {x parent : Names} {name : List Char} (h : x <:+ parent) : x ≠ name :: parent := by
  rintro rfl
  have hlength := h.length_le
  rw [List.length_cons] at hlength
  omega

theorem Made.child {name : List Char} {parent : Names} {created : List Names} (h : Made fs parent (.ok ()) created)
    (hmissing : fs.kind (name :: parent) = none) : Made fs (name :: parent) (.ok ()) ((name :: parent) :: created) where
  above x hx := by
    rcases List.mem_cons.mp hx with rfl | hx
    · exact ⟨List.suffix_rfl, hmissing⟩
    · exact ⟨(h.above x hx).1.trans (List.suffix_cons name parent), (h.above x hx).2⟩
  directory _ := by simp [Mkdirs.now]
  complete _ x hx hkind := by
    rcases List.suffix_cons_iff.mp hx with rfl | hx
    · exact List.mem_cons_self
    · exact List.mem_cons_of_mem _ (h.complete rfl x hx hkind)
  failed _ h := by cases h

theorem Made.refused {name : List Char} {parent : Names} {created : List Names} (h : Made fs parent (.ok ()) created)
    (error : MkdirError) : Made fs (name :: parent) (.error ⟨error, .below (name :: parent)⟩) created where
  above x hx := ⟨(h.above x hx).1.trans (List.suffix_cons name parent), (h.above x hx).2⟩
  directory h := by cases h
  complete h := by cases h
  failed failure hfailure := by
    cases hfailure
    refine ⟨name :: parent, rfl, List.suffix_rfl, fun x hx => ?_⟩
    have habove := (h.above x hx).1
    exact ⟨habove.trans (List.suffix_cons name parent), ne_of_suffix_parent habove⟩

theorem Made.passed {name : List Char} {parent : Names} {failure : MkdirFailure} {created : List Names}
    (h : Made fs parent (.error failure) created) : Made fs (name :: parent) (.error failure) created where
  above x hx := ⟨(h.above x hx).1.trans (List.suffix_cons name parent), (h.above x hx).2⟩
  directory h := by cases h
  complete h := by cases h
  failed failure hfailure := by
    obtain ⟨q, hpath, hq, hcreated⟩ := h.failed failure hfailure
    exact ⟨q, hpath, hq.trans (List.suffix_cons name parent), hcreated⟩

theorem Mkdirs.make_made (hroot : fs.kind [] = some .directory) (names : Names) :
    Made fs names (fs.make names).1 (fs.make names).2 := by
  induction names with
  | nil => exact .existing hroot
  | cons name parent ih =>
    simp only [Mkdirs.make]
    split
    · rename_i hkind
      exact .existing hkind
    · exact .failing _
    · rename_i hmissing
      split
      · exact .failing _
      · rcases hmake : fs.make parent with ⟨result, created⟩
        rw [hmake] at ih
        cases result with
        | error failure => exact ih.passed
        | ok _ =>
          simp only []
          split
          · exact ih.refused _
          · exact ih.child hmissing

/-! ### The walk makes that -/

/-- From a walk on, either a stack is reached with what has been made, or the
walk ends with a failure at the path it is at. -/
def Comes (step : MkdirWalk → MkdirWalk ⊕ (Except MkdirFailure Unit × List Names)) (start : MkdirWalk)
    (stack : List PathText) : Except MkdirFailure Unit × List Names → Prop
  | (.ok (), created) => Loop.Reaches step start { stack, created }
  | (.error failure, created) =>
    ∃ walk, Loop.Reaches step start walk ∧ walk.stack.head? = some failure.path ∧
      step walk = .inr (.error failure, created)

variable {step : MkdirWalk → MkdirWalk ⊕ (Except MkdirFailure Unit × List Names)}

theorem Comes.of_reaches {start walk : MkdirWalk} {stack : List PathText}
    {result : Except MkdirFailure Unit × List Names} (h : Loop.Reaches step start walk)
    (hwalk : Comes step walk stack result) : Comes step start stack result := by
  obtain ⟨result, created⟩ := result
  cases result with
  | ok _ => exact h.trans hwalk
  | error failure =>
    obtain ⟨last, hreach, hlast⟩ := hwalk
    exact ⟨last, h.trans hreach, hlast⟩

/-- A step that goes as Python's does on the paths below the root. -/
def StepsBelow (fs : Mkdirs) (step : MkdirWalk → MkdirWalk ⊕ (Except MkdirFailure Unit × List Names)) : Prop :=
  ∀ names stack created, step ⟨.below names :: stack, created⟩ = mkdirpStep fs ⟨.below names :: stack, created⟩

/-- A path that exists, on the way to another: a directory is passed by. -/
theorem comes_existing (hstep : StepsBelow fs step) {names : Names} {component : Component}
    (hkind : fs.kind names = some component) {stack : List PathText} (hstack : stack ≠ []) :
    Comes step ⟨.below names :: stack, []⟩ stack
      (if component = .directory then (.ok (), []) else (.error ⟨.notDirectory, .below names⟩, [])) := by
  have hnow : fs.now [] names = some component := by simp [Mkdirs.now, hkind]
  have hempty : stack.isEmpty = false := by simpa using hstack
  have hinspect : step ⟨.below names :: stack, []⟩ = inspect fs ⟨stack, []⟩ (.below names) .alreadyExists := by
    rw [hstep]
    simp [mkdirpStep, Mkdirs.mkdir, hnow]
  cases component with
  | directory =>
    refine Loop.Reaches.single ?_
    rw [hinspect]
    simp [inspect, Mkdirs.stat, hnow, hempty]
  | file =>
    refine ⟨_, Loop.Reaches.refl _, rfl, ?_⟩
    rw [hinspect]
    simp [inspect, Mkdirs.stat, hnow, hempty]
  | dangling =>
    refine ⟨_, Loop.Reaches.refl _, rfl, ?_⟩
    rw [hinspect]
    simp [inspect, Mkdirs.stat, hnow, hempty]

/-- A missing path in a directory is created, unless that is refused. -/
theorem comes_child (hstep : StepsBelow fs step) {name : List Char} {parent : Names} {created : List Names}
    (hmissing : fs.now created (name :: parent) = none) (hparent : fs.now created parent = some .directory)
    (stack : List PathText) :
    Comes step ⟨.below (name :: parent) :: stack, created⟩ stack
      (match fs.refusal (name :: parent) with
        | some refusal => (.error ⟨refusal.reported, .below (name :: parent)⟩, created)
        | none => (.ok (), (name :: parent) :: created)) := by
  cases hrefusal : fs.refusal (name :: parent) with
  | none =>
    refine Loop.Reaches.single ?_
    rw [hstep]
    simp [mkdirpStep, Mkdirs.mkdir, hmissing, hparent, hrefusal]
  | some refusal =>
    refine ⟨_, Loop.Reaches.refl _, rfl, ?_⟩
    rw [hstep]
    cases refusal with
    | permissionDenied =>
      simp [mkdirpStep, Mkdirs.mkdir, hmissing, hparent, hrefusal, MkdirRefusal.error, MkdirRefusal.reported]
    | other code =>
      simp [mkdirpStep, Mkdirs.mkdir, hmissing, hparent, hrefusal, MkdirRefusal.error, MkdirRefusal.reported, inspect,
        Mkdirs.stat]

/-- A missing path: by induction on its names, its parent is made first. -/
theorem comes_missing (hstep : StepsBelow fs step) (hroot : fs.kind [] = some .directory) {names : Names}
    (hmissing : fs.kind names = none) (stack : List PathText) :
    Comes step ⟨.below names :: stack, []⟩ stack (fs.make names) := by
  induction names generalizing stack with
  | nil => simp [hroot] at hmissing
  | cons name parent ih =>
    have hnow : fs.now [] (name :: parent) = none := by simp [Mkdirs.now, hmissing]
    cases hparent : fs.kind parent with
    | some component =>
      have hnowParent : fs.now [] parent = some component := by simp [Mkdirs.now, hparent]
      cases component with
      | directory =>
        have hmake : fs.make parent = (.ok (), []) := by
          cases parent <;> simp [Mkdirs.make, hparent]
        simp only [Mkdirs.make, hmissing, hparent, hmake]
        exact comes_child hstep hnow hnowParent stack
      | file =>
        simp only [Mkdirs.make, hmissing, hparent, if_true]
        refine ⟨_, Loop.Reaches.refl _, rfl, ?_⟩
        rw [hstep]
        simp [mkdirpStep, Mkdirs.mkdir, hnow, hnowParent]
      | dangling =>
        cases parent with
        | nil => simp [hroot] at hparent
        | cons above rest =>
          have hup : step ⟨.below (name :: above :: rest) :: stack, []⟩ =
              .inl ⟨.below (above :: rest) :: .below (name :: above :: rest) :: stack, []⟩ := by
            rw [hstep]
            simp [mkdirpStep, Mkdirs.mkdir, hnow, hnowParent, PathText.dirname]
          have hstopped := comes_existing hstep hparent (List.cons_ne_nil (.below (name :: above :: rest)) stack)
          have hmake : fs.make (name :: above :: rest) = (.error ⟨.notDirectory, .below (above :: rest)⟩, []) := by
            simp [Mkdirs.make, hmissing, hparent]
          rw [hmake]
          obtain ⟨walk, hreach, hlast⟩ := hstopped
          exact ⟨walk, (Loop.Reaches.single hup).trans hreach, hlast⟩
    | none =>
      cases parent with
      | nil => simp [hroot] at hparent
      | cons above rest =>
        have hnowParent : fs.now [] (above :: rest) = none := by simp [Mkdirs.now, hparent]
        have hup : step ⟨.below (name :: above :: rest) :: stack, []⟩ =
            .inl ⟨.below (above :: rest) :: .below (name :: above :: rest) :: stack, []⟩ := by
          rw [hstep]
          simp [mkdirpStep, Mkdirs.mkdir, hnow, hnowParent, PathText.dirname]
        have hbelow := ih hparent (.below (name :: above :: rest) :: stack)
        have hmade := Mkdirs.make_made hroot (above :: rest)
        rcases hmake : fs.make (above :: rest) with ⟨result, created⟩
        rw [hmake] at hbelow hmade
        have hmakeChild : fs.make (name :: above :: rest) = match result with
            | .error failure => (.error failure, created)
            | .ok () =>
              match fs.refusal (name :: above :: rest) with
              | some refusal => (.error ⟨refusal.reported, .below (name :: above :: rest)⟩, created)
              | none => (.ok (), (name :: above :: rest) :: created) := by
          rw [Mkdirs.make, hmissing]
          simp only [hparent, hmake]
          cases result <;> rfl
        rw [hmakeChild]
        cases result with
        | error failure => exact .of_reaches (Loop.Reaches.single hup) hbelow
        | ok _ =>
          have hstill : fs.now created (name :: above :: rest) = none := by
            have hfresh : name :: above :: rest ∉ created := fun hmem =>
              ne_of_suffix_parent (hmade.above _ hmem).1 rfl
            simp [Mkdirs.now, hfresh, hmissing]
          have hdown := comes_child hstep hstill (hmade.directory rfl) stack
          exact .of_reaches ((Loop.Reaches.single hup).trans hbelow) hdown

/-! ### The end of the walk -/

/-- What the walk comes to for a target. -/
def Mkdirs.mkdirp (fs : Mkdirs) (target : Names) : Except MkdirFailure Unit × List Names :=
  match fs.kind target with
  | some .directory => (.ok (), [])
  | some .file => (.error ⟨.alreadyExists, .below target⟩, [])
  | some .dangling => (.error ⟨.notFound, .below target⟩, [])
  | none => fs.make target

theorem Mkdirs.mkdirp_made (hroot : fs.kind [] = some .directory) (target : Names) :
    Made fs target (fs.mkdirp target).1 (fs.mkdirp target).2 := by
  simp only [Mkdirs.mkdirp]
  split
  · rename_i hkind
    exact .existing hkind
  · exact .failing _
  · exact .failing _
  · exact Mkdirs.make_made hroot target

/-- A walk ends with a result, and with a failure at the path it is at. -/
def EndsAt (step : MkdirWalk → MkdirWalk ⊕ (Except MkdirFailure Unit × List Names)) (start : MkdirWalk)
    (result : Except MkdirFailure Unit × List Names) : Prop :=
  Loop.Returns step start result ∧
    ∀ failure, result.1 = .error failure →
      ∃ walk, Loop.Reaches step start walk ∧ walk.stack.head? = some failure.path ∧ step walk = .inr result

theorem Comes.endsAt {start : MkdirWalk} {result : Except MkdirFailure Unit × List Names}
    (hempty : ∀ created, step ⟨[], created⟩ = .inr (.ok (), created)) (h : Comes step start [] result) :
    EndsAt step start result := by
  obtain ⟨result, created⟩ := result
  cases result with
  | ok _ => exact ⟨h.returns (.of_inr (hempty created)), fun failure hfailure => by cases hfailure⟩
  | error failure =>
    obtain ⟨walk, hreach, hpath, hlast⟩ := h
    refine ⟨hreach.returns (.of_inr hlast), fun failure' hfailure => ?_⟩
    cases hfailure
    exact ⟨walk, hreach, hpath, hlast⟩

theorem endsAt_mkdirp (hstep : StepsBelow fs step) (hempty : ∀ created, step ⟨[], created⟩ = .inr (.ok (), created))
    (hroot : fs.kind [] = some .directory) (target : Names) :
    EndsAt step ⟨[.below target], []⟩ (fs.mkdirp target) := by
  cases hkind : fs.kind target with
  | none =>
    have hmissing := comes_missing hstep hroot hkind []
    simp only [Mkdirs.mkdirp, hkind]
    exact hmissing.endsAt hempty
  | some component =>
    have hnow : fs.now [] target = some component := by simp [Mkdirs.now, hkind]
    have hlast : step ⟨[.below target], []⟩ = .inr (fs.mkdirp target) := by
      rw [hstep]
      cases component <;> simp [mkdirpStep, Mkdirs.mkdir, hnow, inspect, Mkdirs.stat, Mkdirs.mkdirp, hkind]
    refine ⟨.of_inr hlast, fun failure hfailure => ⟨_, Loop.Reaches.refl _, ?_, hlast⟩⟩
    cases component with
    | directory => simp [Mkdirs.mkdirp, hkind] at hfailure
    | file | dangling =>
      simp only [Mkdirs.mkdirp, hkind, Except.error.injEq] at hfailure
      subst hfailure
      rfl

theorem stepsBelow_python (fs : Mkdirs) : StepsBelow fs (mkdirpStep fs) := fun _ _ _ => rfl

/-- Under a root that exists no path is not found whose parent is the root. -/
theorem mkdir_ne_notFound (hroot : fs.kind [] = some .directory) {names : Names} (hlength : names.length ≤ 1)
    (created : List Names) : fs.mkdir created (.below names) ≠ .error .notFound := by
  have hnow : fs.now created [] = some .directory := by
    simp only [Mkdirs.now, hroot]
    split <;> rfl
  match names with
  | [] => simp [Mkdirs.mkdir, hnow]
  | [name] =>
    simp only [Mkdirs.mkdir]
    cases fs.now created [name] with
    | some component => simp
    | none =>
      cases hrefusal : fs.refusal [name] with
      | none => simp [hnow, hrefusal]
      | some refusal => cases refusal <;> simp [hnow, hrefusal, MkdirRefusal.error]

theorem stepsBelow_rust (hroot : fs.kind [] = some .directory) : StepsBelow fs (Rust.mkdirpStep fs) := by
  intro names stack created
  simp only [Rust.mkdirpStep, mkdirpStep, inspect]
  have hshort : names.length ≤ 1 → fs.mkdir created (.below names) ≠ .error .notFound :=
    fun hlength => mkdir_ne_notFound hroot hlength created
  cases hmkdir : fs.mkdir created (.below names) with
  | ok created => rfl
  | error error =>
    cases error with
    | notFound =>
      match names with
      | [] => exact absurd hmkdir (hshort (by simp))
      | [name] => exact absurd hmkdir (hshort (by simp))
      | name :: above :: rest => simp [Rust.parent, PathText.dirname]
    | permissionDenied | notDirectory => rfl
    | alreadyExists | other =>
      cases fs.stat created (.below names) with
      | error statError => cases stack <;> simp
      | ok component => cases component <;> cases stack <;> simp

/-! ## A root that does not exist -/

theorem kind_eq_none (h : fs.kind [] = none) (names : Names) : fs.kind names = none := by
  cases hkind : fs.kind names with
  | none => rfl
  | some component =>
    have hsome : (fs.kind []).isSome := @Mkdirs.isSome_of_suffix fs [] names List.nil_suffix (by simp [hkind])
    simp [h] at hsome

theorem mkdir_missing_root (h : fs.kind [] = none) (names : Names) :
    fs.mkdir [] (.below names) = .error .notFound := by
  have hnow : ∀ names, fs.now [] names = none := fun names => by simp [Mkdirs.now, kind_eq_none h names]
  cases names <;> simp [Mkdirs.mkdir, hnow]

/-- Python never reports a path below a root that does not exist: it always
goes on to the path's parent. -/
theorem python_ne_below (h : fs.kind [] = none) {start : MkdirWalk} (hstart : start.created = [])
    {names : Names} {error : MkdirError} {created : List Names} :
    ¬ Loop.Returns (mkdirpStep fs) start (.error ⟨error, .below names⟩, created) := by
  rintro ⟨fuel, hrun⟩
  have hkeeps : ∀ s s' : MkdirWalk, s.created = [] → mkdirpStep fs s = .inl s' → s'.created = [] := by
    intro s s' hs hstep
    obtain ⟨stack, created⟩ := s
    simp only at hs
    subst hs
    cases stack with
    | nil => cases hstep
    | cons current stack =>
      cases current with
      | below names =>
        simp only [mkdirpStep, mkdir_missing_root h names] at hstep
        grind [inspect]
      | other text =>
        simp only [mkdirpStep, Mkdirs.mkdir] at hstep
        cases hmkdir : fs.otherMkdir text with
        | ok _ =>
          rw [hmkdir] at hstep
          cases hstep
          rfl
        | error error =>
          rw [hmkdir] at hstep
          cases error <;> grind [inspect, Except.map]
  obtain ⟨last, hcreated, hlast⟩ := Loop.run_invariant hkeeps hstart hrun
  obtain ⟨stack, created⟩ := last
  simp only at hcreated
  subst hcreated
  cases stack with
  | nil => cases hlast
  | cons current stack =>
    cases current with
    | below names' =>
      have hup : (PathText.below names').dirname fs.root ≠ .below names' := by
        cases names' with
        | nil => simp [PathText.dirname]
        | cons name names' => cases names' <;> simp [PathText.dirname]
      simp only [mkdirpStep, mkdir_missing_root h names'] at hlast
      rw [if_pos hup] at hlast
      cases hlast
    | other text =>
      simp only [mkdirpStep, Mkdirs.mkdir] at hlast
      cases hmkdir : fs.otherMkdir text with
      | ok _ =>
        rw [hmkdir] at hlast
        cases hlast
      | error error =>
        rw [hmkdir] at hlast
        cases error <;> grind [inspect, Except.map]

/-- Rust goes up to a root that does not exist, and reports it. -/
theorem rust_missing_root (h : fs.kind [] = none) (names : Names) (stack : List PathText) :
    ∃ walk, Loop.Reaches (Rust.mkdirpStep fs) ⟨.below names :: stack, []⟩ walk ∧ walk.stack.head? = some (.below []) ∧
      Rust.mkdirpStep fs walk = .inr (.error ⟨.notFound, .below []⟩, []) := by
  induction names generalizing stack with
  | nil =>
    refine ⟨_, Loop.Reaches.refl _, rfl, ?_⟩
    simp [Rust.mkdirpStep, mkdir_missing_root h, Rust.parent]
  | cons name names ih =>
    obtain ⟨walk, hreach, hlast⟩ := ih (.below (name :: names) :: stack)
    have hup : Rust.mkdirpStep fs ⟨.below (name :: names) :: stack, []⟩ =
        .inl ⟨.below names :: .below (name :: names) :: stack, []⟩ := by
      simp [Rust.mkdirpStep, mkdir_missing_root h, Rust.parent]
    exact ⟨walk, (Loop.Reaches.single hup).trans hreach, hlast⟩

theorem rust_endsAt_missing (h : fs.kind [] = none) (target : Names) :
    EndsAt (Rust.mkdirpStep fs) ⟨[.below target], []⟩ (.error ⟨.notFound, .below []⟩, []) := by
  obtain ⟨walk, hreach, hpath, hlast⟩ := rust_missing_root h target []
  refine ⟨hreach.returns (.of_inr hlast), fun failure hfailure => ?_⟩
  cases hfailure
  exact ⟨walk, hreach, hpath, hlast⟩

/-! ## What the walks are for -/

/-- Recursive creation of a target: both walks end with one result, at the path
that a failure names; on success the target is a directory and exactly what was
missing of it has been created, and on failure only what was missing above the
path of the failure. -/
def MkdirpSound (fs : Mkdirs) (target : Names) : Prop :=
  ∃ result created,
    EndsAt (mkdirpStep fs) ⟨[.below target], []⟩ (result, created) ∧
    EndsAt (Rust.mkdirpStep fs) ⟨[.below target], []⟩ (result, created) ∧
    (∀ x ∈ created, x <:+ target ∧ fs.kind x = none) ∧
    (result = .ok () →
      fs.now created target = some .directory ∧ ∀ x, x <:+ target → fs.kind x = none → x ∈ created) ∧
    ∀ failure, result = .error failure →
      ∃ q, failure.path = .below q ∧ q <:+ target ∧ ∀ x ∈ created, x <:+ q ∧ x ≠ q

/-- A Windows drive that does not exist. -/
def missingDrive : Mkdirs where
  root := { drive := ['Z', ':'], isSep := fun c => c == '\\' || c == '/' }
  kind _ := none
  refusal _ := none
  otherMkdir _ := .error .notFound
  otherStat _ := .error .notFound
  kind_root := by simp
  kind_cons := by simp

theorem not_mkdirpSound (h : fs.kind [] = none) (target : Names) : ¬ MkdirpSound fs target := by
  rintro ⟨result, created, hpython, hrust, -⟩
  have heq := (rust_endsAt_missing h target).1.unique hrust.1
  rw [← heq] at hpython
  exact python_ne_below h rfl hpython.1

/-- The two walks do what they are for exactly when the root of the target
exists. -/
theorem mkdirp_sound_iff (fs : Mkdirs) (target : Names) : MkdirpSound fs target ↔ fs.kind [] ≠ none := by
  constructor
  · intro hsound hmissing
    exact not_mkdirpSound hmissing target hsound
  · intro hexists
    obtain ⟨component, hcomponent⟩ := Option.ne_none_iff_exists'.mp hexists
    obtain rfl := fs.kind_root component hcomponent
    have hpython := endsAt_mkdirp (stepsBelow_python fs) (fun _ => rfl) hcomponent target
    have hrust := endsAt_mkdirp (stepsBelow_rust hcomponent) (fun _ => rfl) hcomponent target
    have hmade := Mkdirs.mkdirp_made hcomponent target
    exact ⟨_, _, hpython, hrust, hmade.above, fun hok => ⟨hmade.directory hok, hmade.complete hok⟩, hmade.failed⟩

/-- On a drive that does not exist Python goes from `Z:\\a` to `Z:` and back,
and never ends; Rust reports the root. -/
theorem mkdirp_never_ends :
    (∀ fuel, Loop.run (mkdirpStep missingDrive) fuel ⟨[.below [['a']]], []⟩ = none) ∧
      Loop.Returns (Rust.mkdirpStep missingDrive) ⟨[.below [['a']]], []⟩ (.error ⟨.notFound, .below []⟩, []) ∧
      ¬ MkdirpSound missingDrive [['a']] := by
  refine ⟨fun fuel => ?_, (rust_endsAt_missing rfl [['a']]).1, not_mkdirpSound rfl [['a']]⟩
  cases hrun : Loop.run (mkdirpStep missingDrive) fuel ⟨[.below [['a']]], []⟩ with
  | none => rfl
  | some result =>
    have hkeeps : ∀ s s' : MkdirWalk,
        s = ⟨[.below [['a']]], []⟩ ∨ s = ⟨[.other ['Z', ':'], .below [['a']]], []⟩ →
          mkdirpStep missingDrive s = .inl s' →
          s' = ⟨[.below [['a']]], []⟩ ∨ s' = ⟨[.other ['Z', ':'], .below [['a']]], []⟩ := by
      rintro s s' (rfl | rfl) hstep
      · cases hstep
        exact .inr rfl
      · cases hstep
        exact .inl rfl
    obtain ⟨last, hlast, hend⟩ := Loop.run_invariant hkeeps (.inl rfl) hrun
    rcases hlast with rfl | rfl <;> cases hend

end MinionAgent
