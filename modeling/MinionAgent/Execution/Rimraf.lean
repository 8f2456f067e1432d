import MinionAgent.Execution.Disk
import MinionAgent.Library.Loop

/-!
# MinionAgent.Execution.Rimraf

Recursive removal in Python (`execution/filesystem.py`).

* `rimrafEntry`, `unlinkRouted`, `fixWinEperm` — one entry: settled, or a
  directory to remove;
* `rmdirFirst`, `rmdirLast` — the two ends of a directory's removal;
* `rimrafStep`, `removeSync` — the walk with its own stack, and `remove`;
* `Removes` — what the walk does with an entry, a directory and a list of
  children;
* `Removes.reaches` — the walk does that.
-/

namespace MinionAgent

/-! ## Failures -/

/-- An `OSError` with the path of its call. -/
structure FsFailure where
  path : FsPath
  error : OsError
deriving DecidableEq

/-- What `remove` raises. -/
inductive RemoveError
  | refusal (path : FsPath)
  | failed (failure : FsFailure)
deriving DecidableEq

def OsError.vanished (e : OsError) : Bool := e == .notFound

/-- An `rmdir` that fails so removes the children. -/
def OsError.rmdirDescends (e : OsError) : Bool := e == .notEmpty || e == .alreadyExists || e == .notPermitted

namespace Disk

variable (d : Disk) (gone : Gone)

/-- libuv's `EPERM` on Windows. -/
def isWinEperm (e : OsError) : Bool := d.platform == .windows && e == .notPermitted

end Disk

/-! ## One entry -/

/-- A directory to remove, with the error that routed it there. -/
abbrev Descend := FsPath × Option OsError

namespace Rimraf

variable (d : Disk) (gone : Gone)

/-- `_fix_win_eperm`.  Only its last call changes the disk. -/
def fixWinEperm (p : FsPath) (original : OsError) : Except FsFailure (Option Descend × Gone) :=
  match (d.chmod gone p).bind fun _ => d.stat gone p with
  | .error e => if e.vanished then .ok (none, gone) else .error ⟨p, original⟩
  | .ok .directory => .ok (some (p, some original), gone)
  | .ok _ =>
    match d.unlink gone p with
    | .ok gone => .ok (none, gone)
    | .error e => if e.vanished then .ok (none, gone) else .error ⟨p, e⟩

/-- `_unlink_routed`. -/
def unlinkRouted (p : FsPath) : Except FsFailure (Option Descend × Gone) :=
  match d.unlink gone p with
  | .ok gone => .ok (none, gone)
  | .error e =>
    if e.vanished then .ok (none, gone)
    else if d.isWinEperm e then fixWinEperm d gone p e
    else if d.platform ≠ .windows ∧ (e = .isDirectory ∨ e = .notPermitted) then .ok (some (p, some e), gone)
    else .error ⟨p, e⟩

/-- `_rimraf_entry`. -/
def rimrafEntry (p : FsPath) : Except FsFailure (Option Descend × Gone) :=
  match d.lstat gone p with
  | .error e =>
    if e.vanished then .ok (none, gone)
    else if d.isWinEperm e then fixWinEperm d gone p e
    else unlinkRouted d gone p
  | .ok .directory => .ok (some (p, none), gone)
  | .ok _ => unlinkRouted d gone p

/-- `_rmdir_first`: the children to remove first, unless the directory is
settled. -/
def rmdirFirst (p : FsPath) (original : Option OsError) : Except FsFailure (Option (List FsPath) × Gone) :=
  match d.rmdir gone p with
  | .ok gone => .ok (none, gone)
  | .error e =>
    if e.vanished then .ok (none, gone)
    else if d.platform ≠ .windows ∧ e = .notDirectory then
      match original with
      | some original => .error ⟨p, original⟩
      | none => .ok (none, gone)
    else if e.rmdirDescends then
      match d.readdir gone p with
      | .ok children => .ok (some children, gone)
      | .error e => if e.vanished then .ok (none, gone) else .error ⟨p, e⟩
    else .error ⟨p, e⟩

/-- `_rmdir_last`. -/
def rmdirLast (p : FsPath) : Except FsFailure Gone :=
  match d.rmdir gone p with
  | .ok gone => .ok gone
  | .error e => if e.vanished then .ok gone else .error ⟨p, e⟩

/-! ## The walk -/

/-- `_Emptying`: a directory with its children still to remove, the next one
first, and whether anything under it has failed. -/
structure Emptying where
  directory : FsPath
  remaining : List FsPath
  failed : Bool := false

/-- The walk: its stack, the first failure and the entries gone. -/
structure Walk where
  pending : List Emptying
  first : Option FsFailure := none
  gone : Gone

/-- `pending[-1].failed = True`. -/
def markFailed : List Emptying → List Emptying
  | [] => []
  | frame :: pending => { frame with failed := true } :: pending

/-- What the walk raises, or that it raises nothing. -/
def raiseFirst : Option FsFailure → Except FsFailure Unit
  | some failure => .error failure
  | none => .ok ()

/-- An entry and, where it is a directory to remove, its first `rmdir`: the
directory with its children where these come first.  A failing entry leaves
the disk as it is. -/
def openEntry (p : FsPath) : Except FsFailure (Option (FsPath × List FsPath) × Gone) :=
  match rimrafEntry d gone p with
  | .error failure => .error failure
  | .ok (none, gone) => .ok (none, gone)
  | .ok (some (directory, original), gone) =>
    match rmdirFirst d gone directory original with
    | .error failure => .error failure
    | .ok (none, gone) => .ok (none, gone)
    | .ok (some grandchildren, gone) => .ok (some (directory, grandchildren), gone)

/-- One turn of `_rimraf`'s loop. -/
def rimrafStep (walk : Walk) : Walk ⊕ (Except FsFailure Unit × Gone) :=
  match walk.pending with
  | [] => .inr (raiseFirst walk.first, walk.gone)
  | frame :: pending =>
    match frame.remaining with
    | [] =>
      if frame.failed then .inl { walk with pending := markFailed pending }
      else
        match rmdirLast d walk.gone frame.directory with
        | .ok gone => .inl { walk with pending, gone }
        | .error failure => .inl { walk with pending := markFailed pending, first := walk.first <|> some failure }
    | child :: remaining =>
      match openEntry d walk.gone child with
      | .error failure =>
        .inl { walk with
          pending := { frame with remaining, failed := true } :: pending
          first := walk.first <|> some failure }
      | .ok (none, gone) => .inl { walk with pending := { frame with remaining } :: pending, gone }
      | .ok (some (directory, children), gone) =>
        .inl { walk with pending := ⟨directory, children, false⟩ :: { frame with remaining } :: pending, gone }

/-- `_rimraf`, in at most so many turns. -/
def rimraf (fuel : Nat) (p : FsPath) (original : Option OsError) : Option (Except FsFailure Unit × Gone) :=
  match rmdirFirst d gone p original with
  | .error failure => some (.error failure, gone)
  | .ok (none, gone) => some (.ok (), gone)
  | .ok (some children, gone) => Loop.run (rimrafStep d) fuel { pending := [⟨p, children, false⟩], gone }

/-- `_remove_sync` after its validation. -/
def removeTarget (fuel : Nat) (p : FsPath) : Option (Except RemoveError Unit × Gone) :=
  match rimrafEntry d gone p with
  | .error failure => some (.error (.failed failure), gone)
  | .ok (none, gone) => some (.ok (), gone)
  | .ok (some (directory, original), gone) =>
    (rimraf d gone fuel directory original).map fun (outcome, gone) => (outcome.mapError .failed, gone)

/-- `_remove_sync`. -/
def removeSync (fuel : Nat) (p : FsPath) (recursive force : Bool) : Option (Except RemoveError Unit × Gone) :=
  match d.lstat gone p with
  | .error e =>
    if force && e.vanished then removeTarget d gone fuel p else some (.error (.failed ⟨p, e⟩), gone)
  | .ok kind =>
    if kind = .directory ∧ recursive = false then some (.error (.refusal p), gone) else removeTarget d gone fuel p

variable {d gone}

/-! ## One entry, case by case -/

variable {p q : FsPath} {original : Option OsError} {gone' : Gone} {first : Option FsFailure}

theorem fixWinEperm_descends {e : OsError} (h : fixWinEperm d gone p e = .ok (some (q, original), gone')) :
    q = p ∧ gone' = gone := by
  simp only [fixWinEperm] at h
  grind

theorem unlinkRouted_descends (h : unlinkRouted d gone p = .ok (some (q, original), gone')) : q = p ∧ gone' = gone := by
  simp only [unlinkRouted] at h
  split at h
  · cases h
  · split at h
    · cases h
    · split at h
      · exact fixWinEperm_descends h
      · grind

/-- An entry that is a directory to remove is itself that directory, and the
disk is as it was. -/
theorem rimrafEntry_descends (h : rimrafEntry d gone p = .ok (some (q, original), gone')) : q = p ∧ gone' = gone := by
  simp only [rimrafEntry] at h
  split at h
  · split at h
    · cases h
    · split at h
      · exact fixWinEperm_descends h
      · exact unlinkRouted_descends h
  · cases h
    exact ⟨rfl, rfl⟩
  · exact unlinkRouted_descends h

/-- The children to remove first are the listing, after an `rmdir` that
descends. -/
theorem rmdirFirst_children {children : List FsPath}
    (h : rmdirFirst d gone p original = .ok (some children, gone')) :
    gone' = gone ∧ d.readdir gone p = .ok children ∧ ∃ e, d.rmdir gone p = .error e ∧ e.rmdirDescends := by
  simp only [rmdirFirst] at h
  grind

/-! ## What the walk does -/

/-- What the walk has to remove. -/
inductive Task
  | entry (p : FsPath)
  | directory (p : FsPath) (original : Option OsError)
  | children (paths : List FsPath)

/-- How a directory ends, its children handled: with the first failure under
it, or with its last `rmdir`. -/
def closeDirectory (d : Disk) (gone : Gone) (p : FsPath) (first : Option FsFailure) : Option FsFailure × Gone :=
  match first with
  | some failure => (some failure, gone)
  | none =>
    match rmdirLast d gone p with
    | .ok gone => (none, gone)
    | .error failure => (some failure, gone)

/-- What the walk does with a task, from a disk to another: the first failure
of the task.  The children of a directory are all removed, each with all below
it before the next, and the directory after them unless one has failed. -/
inductive Removes (d : Disk) : Task → Gone → Option FsFailure → Gone → Prop
  | refused {p : FsPath} {gone : Gone} {failure : FsFailure} (h : rimrafEntry d gone p = .error failure) :
      Removes d (.entry p) gone (some failure) gone
  | settled {p : FsPath} {gone gone' : Gone} (h : rimrafEntry d gone p = .ok (none, gone')) :
      Removes d (.entry p) gone none gone'
  | descends {p : FsPath} {original : Option OsError} {gone : Gone} {first : Option FsFailure} {gone' : Gone}
      (h : rimrafEntry d gone p = .ok (some (p, original), gone))
      (hdirectory : Removes d (.directory p original) gone first gone') : Removes d (.entry p) gone first gone'
  | firstRefused {p : FsPath} {original : Option OsError} {gone : Gone} {failure : FsFailure}
      (h : rmdirFirst d gone p original = .error failure) :
      Removes d (.directory p original) gone (some failure) gone
  | firstSettled {p : FsPath} {original : Option OsError} {gone gone' : Gone}
      (h : rmdirFirst d gone p original = .ok (none, gone')) :
      Removes d (.directory p original) gone none gone'
  | emptied {p : FsPath} {original : Option OsError} {children : List FsPath} {gone gone' gone'' : Gone}
      {first last : Option FsFailure} (h : rmdirFirst d gone p original = .ok (some children, gone))
      (hchildren : Removes d (.children children) gone first gone')
      (hlast : closeDirectory d gone' p first = (last, gone'')) : Removes d (.directory p original) gone last gone''
  | nil {gone : Gone} : Removes d (.children []) gone none gone
  | cons {p : FsPath} {paths : List FsPath} {gone : Gone} {first : Option FsFailure} {gone' : Gone}
      {second : Option FsFailure} {gone'' : Gone} (hentry : Removes d (.entry p) gone first gone')
      (hrest : Removes d (.children paths) gone' second gone'') :
      Removes d (.children (p :: paths)) gone (first <|> second) gone''

theorem exists_removes_children {paths : List FsPath}
    (h : ∀ p ∈ paths, ∀ gone, ∃ first gone', Removes d (.entry p) gone first gone') (gone : Gone) :
    ∃ first gone', Removes d (.children paths) gone first gone' := by
  induction paths generalizing gone with
  | nil => exact ⟨none, gone, .nil⟩
  | cons p paths ih =>
    obtain ⟨first, gone', hentry⟩ := h p List.mem_cons_self gone
    obtain ⟨second, gone'', hrest⟩ := ih (fun q hq => h q (List.mem_cons_of_mem p hq)) gone'
    exact ⟨first <|> second, gone'', .cons hentry hrest⟩

theorem exists_removes_directory
    (h : ∀ gone paths, d.readdir gone p = .ok paths → ∀ path ∈ paths, ∀ gone, ∃ first gone',
      Removes d (.entry path) gone first gone')
    (gone : Gone) : ∃ first gone', Removes d (.directory p original) gone first gone' := by
  cases hfirst : rmdirFirst d gone p original with
  | error failure => exact ⟨some failure, gone, .firstRefused hfirst⟩
  | ok answer =>
    obtain ⟨children, gone₁⟩ := answer
    cases children with
    | none => exact ⟨none, gone₁, .firstSettled hfirst⟩
    | some children =>
      obtain ⟨rfl, hlist, -⟩ := rmdirFirst_children hfirst
      obtain ⟨first, gone', hchildren⟩ := exists_removes_children (h gone₁ children hlist) gone₁
      exact ⟨_, _, .emptied hfirst hchildren rfl⟩

theorem mem_readdir {p path : FsPath} {paths : List FsPath} (h : d.readdir gone p = .ok paths) (hpath : path ∈ paths) :
    ∃ name, path = name :: p := by
  simp only [Disk.readdir] at h
  grind

theorem exists_removes_of_readdir
    (h : ∀ gone paths, d.readdir gone p = .ok paths → ∀ path ∈ paths, ∀ gone, ∃ first gone',
      Removes d (.entry path) gone first gone')
    (gone : Gone) : ∃ first gone', Removes d (.entry p) gone first gone' := by
  cases hentry : rimrafEntry d gone p with
  | error failure => exact ⟨some failure, gone, .refused hentry⟩
  | ok answer =>
    obtain ⟨descend, gone₁⟩ := answer
    cases descend with
    | none => exact ⟨none, gone₁, .settled hentry⟩
    | some descend =>
      obtain ⟨q, original⟩ := descend
      obtain ⟨rfl, rfl⟩ := rimrafEntry_descends hentry
      obtain ⟨first, gone', hdirectory⟩ := exists_removes_directory h gone₁
      exact ⟨first, gone', .descends hentry hdirectory⟩

/-- Removal ends for every path, whatever links it goes through: each listing
leaves less room. -/
theorem exists_removes {bound : Nat} (h : d.Within bound p) (gone : Gone) :
    ∃ first gone', Removes d (.entry p) gone first gone' := by
  induction bound generalizing p gone with
  | zero => exact exists_removes_of_readdir (fun _ paths hlist => absurd hlist (h.readdir paths)) gone
  | succ bound ih =>
    refine exists_removes_of_readdir (fun _ paths hlist path hpath => ?_) gone
    obtain ⟨name, rfl⟩ := mem_readdir hlist hpath
    exact ih (h.child name)

/-! ## The walk does that -/

/-- The walk takes paths off a frame and does with them what a removal of them
does. -/
def Handles (d : Disk) (paths : List FsPath) (gone : Gone) (first : Option FsFailure) (gone' : Gone) : Prop :=
  ∀ directory remaining failed pending before,
    Loop.Reaches (rimrafStep d) ⟨⟨directory, paths ++ remaining, failed⟩ :: pending, before, gone⟩
      ⟨⟨directory, remaining, failed || first.isSome⟩ :: pending, before <|> first, gone'⟩

theorem Handles.nil (gone : Gone) : Handles d [] gone none gone := by
  intro directory remaining failed pending before
  simpa using (Loop.Reaches.refl _ : Loop.Reaches (rimrafStep d) _ _)

theorem Handles.append {paths paths' : List FsPath} {gone gone'' : Gone} {first second : Option FsFailure}
    (h : Handles d paths gone first gone') (h' : Handles d paths' gone' second gone'') :
    Handles d (paths ++ paths') gone (first <|> second) gone'' := by
  intro directory remaining failed pending before
  have hfirst := h directory (paths' ++ remaining) failed pending before
  have hsecond := h' directory remaining (failed || first.isSome) pending (before <|> first)
  rw [List.append_assoc]
  refine hfirst.trans ?_
  cases first <;> simpa [Bool.or_assoc] using hsecond

/-- An entry that is settled, or fails, takes one turn. -/
theorem Handles.of_openEntry_error {gone : Gone} {failure : FsFailure} (h : openEntry d gone p = .error failure) :
    Handles d [p] gone (some failure) gone := by
  intro directory remaining failed pending before
  refine Loop.Reaches.single ?_
  simp [rimrafStep, h]

theorem Handles.of_openEntry_none {gone : Gone} (h : openEntry d gone p = .ok (none, gone')) :
    Handles d [p] gone none gone' := by
  intro directory remaining failed pending before
  refine Loop.Reaches.single ?_
  simp [rimrafStep, h]

/-- The turn that takes a frame off the stack, its children handled. -/
theorem rimrafStep_close {gone : Gone} {first last before : Option FsFailure} {pending : List Emptying}
    (h : closeDirectory d gone p first = (last, gone')) :
    rimrafStep d ⟨⟨p, [], first.isSome⟩ :: pending, before <|> first, gone⟩ =
      .inl ⟨if last.isSome then markFailed pending else pending, before <|> last, gone'⟩ := by
  simp only [closeDirectory] at h
  cases first with
  | some failure =>
    cases h
    simp [rimrafStep]
  | none =>
    simp only [] at h
    split at h <;> cases h <;> simp [rimrafStep, *]

/-- A directory with children gets a frame of its own. -/
theorem Handles.of_openEntry_some {children : List FsPath} {gone gone'' : Gone} {first last : Option FsFailure}
    (h : openEntry d gone p = .ok (some (p, children), gone)) (hchildren : Handles d children gone first gone')
    (hlast : closeDirectory d gone' p first = (last, gone'')) : Handles d [p] gone last gone'' := by
  intro directory remaining failed pending before
  have hopen : Loop.Reaches (rimrafStep d) ⟨⟨directory, [p] ++ remaining, failed⟩ :: pending, before, gone⟩
      ⟨⟨p, children ++ [], false⟩ :: ⟨directory, remaining, failed⟩ :: pending, before, gone⟩ := by
    refine Loop.Reaches.single ?_
    simp [rimrafStep, h]
  refine hopen.trans ((hchildren p [] false (⟨directory, remaining, failed⟩ :: pending) before).trans ?_)
  refine Loop.Reaches.single ?_
  rw [Bool.false_or, rimrafStep_close hlast]
  cases last <;> simp [markFailed]

/-- What the walk does with a task, as turns of its loop. -/
def Task.Handled (d : Disk) : Task → Gone → Option FsFailure → Gone → Prop
  | .entry p, gone, first, gone' => Handles d [p] gone first gone'
  | .directory p original, gone, first, gone' =>
    rimrafEntry d gone p = .ok (some (p, original), gone) → Handles d [p] gone first gone'
  | .children paths, gone, first, gone' => Handles d paths gone first gone'

/-- The walk does with a task what its removal does. -/
theorem Removes.handled {task : Task} {gone : Gone} (h : Removes d task gone first gone') :
    task.Handled d gone first gone' := by
  induction h with
  | refused h => exact .of_openEntry_error (by simp [openEntry, h])
  | settled h => exact .of_openEntry_none (by simp [openEntry, h])
  | descends h _ ih => exact ih h
  | firstRefused h =>
    intro hentry
    exact .of_openEntry_error (by simp [openEntry, hentry, h])
  | firstSettled h =>
    intro hentry
    exact .of_openEntry_none (by simp [openEntry, hentry, h])
  | emptied h _ hlast ih =>
    intro hentry
    exact .of_openEntry_some (by simp [openEntry, hentry, h]) ih hlast
  | nil => exact .nil _
  | cons _ _ hentry hrest =>
    have hfirst : Handles d [_] _ _ _ := hentry
    exact hfirst.append hrest

/-! ## `remove` -/

/-- `_rimraf` ends as the removal of its directory does. -/
theorem rimraf_of_removes {gone : Gone} (h : Removes d (.directory p original) gone first gone') :
    ∃ fuel, rimraf d gone fuel p original = some (raiseFirst first, gone') := by
  cases h with
  | firstRefused h => exact ⟨0, by simp [rimraf, h, raiseFirst]⟩
  | firstSettled h => exact ⟨0, by simp [rimraf, h, raiseFirst]⟩
  | emptied h hchildren hlast =>
    rename_i children gone₁ under
    have hreach := hchildren.handled p [] false [] none
    rw [List.append_nil, Bool.false_or] at hreach
    have hclose : Loop.Reaches (rimrafStep d) ⟨[⟨p, [], under.isSome⟩], none <|> under, gone₁⟩ _ :=
      Loop.Reaches.single (rimrafStep_close hlast)
    have hend : Loop.Returns (rimrafStep d) ⟨if first.isSome then markFailed [] else [], none <|> first, gone'⟩
        (raiseFirst first, gone') := .of_inr (by cases first <;> rfl)
    obtain ⟨fuel, hrun⟩ := (hreach.trans hclose).returns hend
    exact ⟨fuel, by simpa [rimraf, h] using hrun⟩

/-- What `remove` raises after the first failure of a removal. -/
def raiseRemove (first : Option FsFailure) : Except RemoveError Unit := (raiseFirst first).mapError .failed

theorem removeTarget_of_removes {gone : Gone} (h : Removes d (.entry p) gone first gone') :
    ∃ fuel, removeTarget d gone fuel p = some (raiseRemove first, gone') := by
  cases h with
  | refused h => exact ⟨0, by simp [removeTarget, h, raiseRemove, raiseFirst, Except.mapError]⟩
  | settled h => exact ⟨0, by simp [removeTarget, h, raiseRemove, raiseFirst, Except.mapError]⟩
  | descends h hdirectory =>
    obtain ⟨fuel, hfuel⟩ := rimraf_of_removes hdirectory
    exact ⟨fuel, by simp [removeTarget, h, hfuel, raiseRemove]⟩

theorem rimraf_mono {fuel fuel' : Nat} (hfuel : fuel ≤ fuel') {gone : Gone}
    {result : Except FsFailure Unit × Gone} (h : rimraf d gone fuel p original = some result) :
    rimraf d gone fuel' p original = some result := by
  simp only [rimraf] at h ⊢
  split at h
  · exact h
  · exact h
  · exact Loop.run_mono hfuel h

/-- More turns than enough are enough. -/
theorem removeTarget_mono {fuel fuel' : Nat} (hfuel : fuel ≤ fuel') {gone : Gone}
    {result : Except RemoveError Unit × Gone} (h : removeTarget d gone fuel p = some result) :
    removeTarget d gone fuel' p = some result := by
  simp only [removeTarget] at h ⊢
  split at h
  · exact h
  · exact h
  · obtain ⟨outcome, hrun, heq⟩ := Option.map_eq_some_iff.mp h
    rw [rimraf_mono hfuel hrun]
    exact congrArg some heq

end Rimraf

end MinionAgent
