import MinionAgent.Execution.Rimraf

/-!
# MinionAgent.Execution.RustRimraf

Recursive removal in Rust (`execution/filesystem/rimraf.rs`): one stack of
work, and a counter of failures sampled where a directory is descended into.

* `recover`, `step`, `remove` — the source;
* `step_entry`, `step_directory` — one piece of work, from the Python entry
  and directory;
* `Removes.worked` — the stack does what a removal does.
-/

namespace MinionAgent

namespace RustRimraf

open Rimraf (Removes Task rimrafEntry unlinkRouted fixWinEperm rmdirFirst rmdirLast closeDirectory raiseRemove)

variable (d : Disk) (gone : Gone)

/-! ## Errors -/

def missing (e : OsError) : Bool := e == .notFound

def eperm (e : OsError) : Bool := e == .notPermitted

/-- `enotdir`.  On Windows only an error without a code is one, and the calls
here have codes. -/
def enotdir (e : OsError) : Bool := d.platform != .windows && e == .notDirectory

def directoryRetry (e : OsError) : Bool := eperm e || e == .notEmpty || e == .alreadyExists

/-! ## Work -/

/-- `Work`. -/
inductive Work
  | entry (p : FsPath)
  | directory (p : FsPath) (original : Option OsError)
  | finalDirectory (p : FsPath) (before : Nat)

/-- `recover`, with the work it pushes. -/
def recover (p : FsPath) (original : OsError) : Except FsFailure (List Work × Gone) :=
  match d.chmod gone p with
  | .error e => if missing e then .ok ([], gone) else .error ⟨p, original⟩
  | .ok _ =>
    match d.stat gone p with
    | .ok .directory => .ok ([.directory p (some original)], gone)
    | .ok _ =>
      match d.unlink gone p with
      | .ok gone => .ok ([], gone)
      | .error e => if missing e then .ok ([], gone) else .error ⟨p, e⟩
    | .error e => if missing e then .ok ([], gone) else .error ⟨p, original⟩

/-- The `unlink` of `step`. -/
def unlinkEntry (p : FsPath) : Except FsFailure (List Work × Gone) :=
  match d.unlink gone p with
  | .ok gone => .ok ([], gone)
  | .error e =>
    if missing e then .ok ([], gone)
    else if d.platform = .windows ∧ eperm e then recover d gone p e
    else if e = .isDirectory ∨ (d.platform ≠ .windows ∧ eperm e) then .ok ([.directory p (some e)], gone)
    else .error ⟨p, e⟩

/-- `step`, with the work it pushes, the next one first.  Its last call is the
only one that changes the disk, so a step that fails leaves it as it is. -/
def step (failures : Nat) : Work → Except FsFailure (List Work × Gone)
  | .entry p =>
    match d.lstat gone p with
    | .ok .directory => .ok ([.directory p none], gone)
    | .ok _ => unlinkEntry d gone p
    | .error e =>
      if missing e then .ok ([], gone)
      else if d.platform = .windows ∧ eperm e then recover d gone p e
      else unlinkEntry d gone p
  | .directory p original =>
    match d.rmdir gone p with
    | .ok gone => .ok ([], gone)
    | .error e =>
      if missing e then .ok ([], gone)
      else if enotdir d e then
        match original with
        | some original => .error ⟨p, original⟩
        | none => .ok ([], gone)
      else if directoryRetry e then
        match d.readdir gone p with
        | .ok children => .ok (children.map .entry ++ [.finalDirectory p failures], gone)
        | .error e => if missing e then .ok ([], gone) else .error ⟨p, e⟩
      else .error ⟨p, e⟩
  | .finalDirectory p before =>
    if before ≠ failures then .ok ([], gone)
    else
      match d.rmdir gone p with
      | .ok gone => .ok ([], gone)
      | .error e => if missing e then .ok ([], gone) else .error ⟨p, e⟩

/-- The state of `remove`'s loop. -/
structure Progress where
  stack : List Work
  failures : Nat := 0
  firstError : Option FsFailure := none
  gone : Gone

/-- One turn of `remove`'s loop. -/
def turn (progress : Progress) : Progress ⊕ (Except RemoveError Unit × Gone) :=
  match progress.stack with
  | [] => .inr (raiseRemove progress.firstError, progress.gone)
  | work :: stack =>
    match step d progress.gone progress.failures work with
    | .ok (pushed, gone) => .inl { progress with stack := pushed ++ stack, gone }
    | .error failure =>
      .inl { progress with
        stack, failures := progress.failures + 1, firstError := progress.firstError <|> some failure }

/-- `remove` after its validation, in at most so many turns. -/
def removeTarget (fuel : Nat) (p : FsPath) : Option (Except RemoveError Unit × Gone) :=
  Loop.run (turn d) fuel { stack := [.entry p], gone }

/-- `remove`. -/
def remove (fuel : Nat) (p : FsPath) (recursive force : Bool) : Option (Except RemoveError Unit × Gone) :=
  match d.lstat gone p with
  | .ok kind =>
    if kind = .directory ∧ recursive = false then some (.error (.refusal p), gone) else removeTarget d gone fuel p
  | .error e => if force && missing e then removeTarget d gone fuel p else some (.error (.failed ⟨p, e⟩), gone)

variable {d gone}

/-! ## One piece of work -/

/-- The work for what an entry, settled here or not, has left to do. -/
def pushed : Option Descend × Gone → List Work × Gone
  | (none, gone) => ([], gone)
  | (some (p, original), gone) => ([.directory p original], gone)

theorem recover_eq (p : FsPath) (original : OsError) :
    recover d gone p original = (fixWinEperm d gone p original).map pushed := by
  simp only [recover, fixWinEperm, missing, OsError.vanished]
  cases d.chmod gone p with
  | error e => cases e <;> rfl
  | ok _ =>
    simp only [Except.bind]
    cases d.stat gone p with
    | error e => cases e <;> rfl
    | ok kind =>
      cases kind with
      | directory => rfl
      | file | link =>
        simp only []
        cases d.unlink gone p with
        | error e => cases e <;> rfl
        | ok gone => rfl

/-- `unlink` on Windows answers nothing that std calls `IsADirectory`. -/
def NoDirectoryKind (d : Disk) : Prop := d.platform = .windows → ∀ q, d.fault .unlink q ≠ some .isDirectory

theorem NoDirectoryKind.posix (hd : NoDirectoryKind d) {p : FsPath} (h : d.unlink gone p = .error .isDirectory) :
    d.platform ≠ .windows := by
  intro hwindows
  simp only [Disk.unlink] at h
  split at h
  · rename_i e hentry
    cases h
    rcases Disk.entry_error hentry with hpath | ⟨q, hfault⟩
    · simp [Disk.IsPathError] at hpath
    · exact hd hwindows q hfault
  · simp [Disk.unlinkRefusal, hwindows] at h
  · cases h

theorem unlinkEntry_eq (hd : NoDirectoryKind d) (p : FsPath) :
    unlinkEntry d gone p = (unlinkRouted d gone p).map pushed := by
  simp only [unlinkEntry, unlinkRouted, missing, eperm, OsError.vanished, Disk.isWinEperm, recover_eq]
  cases h : d.unlink gone p with
  | ok gone => rfl
  | error e =>
    cases e with
    | isDirectory =>
      have hposix := hd.posix h
      simp [hposix, Except.map, pushed]
    | notPermitted => by_cases hwindows : d.platform = .windows <;> simp [hwindows, Except.map, pushed]
    | _ => simp [Except.map, pushed]

/-- The work of an entry is what the Python entry has left to do. -/
theorem step_entry (hd : NoDirectoryKind d) (failures : Nat) (p : FsPath) :
    step d gone failures (.entry p) = (rimrafEntry d gone p).map pushed := by
  simp only [step, rimrafEntry, missing, eperm, OsError.vanished, Disk.isWinEperm, recover_eq, unlinkEntry_eq hd]
  cases d.lstat gone p with
  | ok kind => cases kind <;> rfl
  | error e =>
    cases e with
    | notPermitted => by_cases hwindows : d.platform = .windows <;> simp [hwindows]
    | notFound => rfl
    | _ => simp

/-- The work for a directory's children, when it has some to remove first. -/
def pushedChildren (failures : Nat) (p : FsPath) : Option (List FsPath) × Gone → List Work × Gone
  | (none, gone) => ([], gone)
  | (some children, gone) => (children.map .entry ++ [.finalDirectory p failures], gone)

theorem step_directory (failures : Nat) (p : FsPath) (original : Option OsError) :
    step d gone failures (.directory p original) = (rmdirFirst d gone p original).map (pushedChildren failures p) := by
  simp only [step, rmdirFirst, missing, enotdir, directoryRetry, eperm, OsError.vanished, OsError.rmdirDescends]
  cases d.rmdir gone p with
  | ok gone => rfl
  | error e =>
    cases e with
    | notDirectory =>
      by_cases hwindows : d.platform = .windows <;> cases original <;> simp [hwindows, Except.map, pushedChildren]
    | notEmpty | alreadyExists | notPermitted =>
      cases d.readdir gone p with
      | ok children => simp [Except.map, pushedChildren]
      | error e => cases e <;> simp [Except.map, pushedChildren]
    | _ => simp [Except.map, pushedChildren]

/-- The last `rmdir` of a directory under which nothing has failed since it was
descended into. -/
theorem step_finalDirectory (failures : Nat) (p : FsPath) :
    step d gone failures (.finalDirectory p failures) = (rmdirLast d gone p).map fun gone => ([], gone) := by
  simp only [step, rmdirLast, missing, OsError.vanished]
  cases d.rmdir gone p with
  | ok gone => simp [Except.map]
  | error e => cases e <;> simp [Except.map]

theorem step_finalDirectory_of_failed {before failures : Nat} (h : before ≠ failures) (p : FsPath) :
    step d gone failures (.finalDirectory p before) = .ok ([], gone) := by
  simp [step, h]

/-! ## The stack -/

/-- The loop works through the work on top of its stack: some failures more,
none exactly when it did not fail. -/
def Works (d : Disk) (works : List Work) (gone : Gone) (first : Option FsFailure) (gone' : Gone) : Prop :=
  ∀ stack failures firstError, ∃ more, (more = 0 ↔ first = none) ∧
    Loop.Reaches (turn d) ⟨works ++ stack, failures, firstError, gone⟩
      ⟨stack, failures + more, firstError <|> first, gone'⟩

theorem Works.nil (gone : Gone) : Works d [] gone none gone := by
  intro stack failures firstError
  exact ⟨0, by simp, by simpa using (Loop.Reaches.refl _ : Loop.Reaches (turn d) _ _)⟩

theorem Works.append {works works' : List Work} {gone gone' gone'' : Gone} {first second : Option FsFailure}
    (h : Works d works gone first gone') (h' : Works d works' gone' second gone'') :
    Works d (works ++ works') gone (first <|> second) gone'' := by
  intro stack failures firstError
  obtain ⟨more, hmore, hfirst⟩ := h (works' ++ stack) failures firstError
  obtain ⟨more', hmore', hsecond⟩ := h' stack (failures + more) (firstError <|> first)
  refine ⟨more + more', ?_, ?_⟩
  · cases first <;> simp_all
  · rw [List.append_assoc]
    refine hfirst.trans ?_
    rw [← Nat.add_assoc]
    cases firstError <;> cases first <;> simpa using hsecond

/-- Work that fails, or that pushes more work. -/
theorem Works.of_error {work : Work} {gone : Gone} {failure : FsFailure}
    (h : ∀ failures, step d gone failures work = .error failure) : Works d [work] gone (some failure) gone := by
  intro stack failures firstError
  refine ⟨1, by simp, Loop.Reaches.single ?_⟩
  simp [turn, h]

theorem Works.of_ok {work : Work} {gone gone' gone'' : Gone} {more : List Work} {first : Option FsFailure}
    (h : ∀ failures, step d gone failures work = .ok (more, gone')) (hmore : Works d more gone' first gone'') :
    Works d [work] gone first gone'' := by
  intro stack failures firstError
  obtain ⟨count, hcount, hreach⟩ := hmore stack failures firstError
  refine ⟨count, hcount, Loop.Reaches.trans (Loop.Reaches.single ?_) hreach⟩
  simp [turn, h]

/-- A directory's children and its last `rmdir`, which the counter leaves out
when one of them has failed. -/
theorem Works.of_children {p : FsPath} {original : Option OsError} {children : List FsPath} {gone gone' gone'' : Gone}
    {first last : Option FsFailure} (h : rmdirFirst d gone p original = .ok (some children, gone))
    (hchildren : Works d (children.map .entry) gone first gone')
    (hlast : closeDirectory d gone' p first = (last, gone'')) : Works d [.directory p original] gone last gone'' := by
  intro stack failures firstError
  obtain ⟨more, hmore, hreach⟩ := hchildren (.finalDirectory p failures :: stack) failures firstError
  have hopen : Loop.Reaches (turn d) ⟨[.directory p original] ++ stack, failures, firstError, gone⟩
      ⟨children.map .entry ++ .finalDirectory p failures :: stack, failures, firstError, gone⟩ := by
    refine Loop.Reaches.single ?_
    simp [turn, step_directory, h, Except.map, pushedChildren]
  cases first with
  | some failure =>
    cases hlast
    refine ⟨more, hmore, (hopen.trans hreach).trans (Loop.Reaches.single ?_)⟩
    have hcount : failures ≠ failures + more := by
      have hpos : more ≠ 0 := by simp [hmore]
      omega
    simp [turn, step_finalDirectory_of_failed hcount]
  | none =>
    obtain rfl := hmore.mpr rfl
    simp only [closeDirectory] at hlast
    have hstep := @step_finalDirectory d gone' failures p
    cases hrmdir : rmdirLast d gone' p with
    | ok gone₁ =>
      rw [hrmdir] at hlast hstep
      cases hlast
      refine ⟨0, by simp, (hopen.trans hreach).trans (Loop.Reaches.single ?_)⟩
      simp [turn, hstep, Except.map]
    | error failure =>
      rw [hrmdir] at hlast hstep
      cases hlast
      refine ⟨1, by simp, (hopen.trans hreach).trans (Loop.Reaches.single ?_)⟩
      simp [turn, hstep, Except.map]

/-- What the stack does with a task. -/
def Worked (d : Disk) : Task → Gone → Option FsFailure → Gone → Prop
  | .entry p => Works d [.entry p]
  | .directory p original => Works d [.directory p original]
  | .children paths => Works d (paths.map .entry)

/-- The stack does with a task what its removal does. -/
theorem worked (hd : NoDirectoryKind d) {task : Task} {gone gone' : Gone} {first : Option FsFailure}
    (h : Removes d task gone first gone') : Worked d task gone first gone' := by
  induction h with
  | refused h => exact .of_error fun failures => by simp [step_entry hd, h, Except.map]
  | settled h => exact .of_ok (fun failures => by simp [step_entry hd, h, Except.map, pushed]) (.nil _)
  | descends h _ ih => exact .of_ok (fun failures => by simp [step_entry hd, h, Except.map, pushed]) ih
  | firstRefused h => exact .of_error fun failures => by simp [step_directory, h, Except.map]
  | firstSettled h => exact .of_ok (fun failures => by simp [step_directory, h, Except.map, pushedChildren]) (.nil _)
  | emptied h _ hlast ih => exact .of_children h ih hlast
  | nil => exact .nil _
  | cons _ _ hentry hrest =>
    have hfirst : Works d [.entry _] _ _ _ := hentry
    exact hfirst.append hrest

theorem removeTarget_of_removes (hd : NoDirectoryKind d) {p : FsPath} {gone gone' : Gone} {first : Option FsFailure}
    (h : Removes d (.entry p) gone first gone') :
    ∃ fuel, removeTarget d gone fuel p = some (raiseRemove first, gone') := by
  obtain ⟨more, -, hreach⟩ := worked hd h [] 0 none
  have hend : Loop.Returns (turn d) ⟨[], 0 + more, none <|> first, gone'⟩ (raiseRemove first, gone') :=
    .of_inr (by simp [turn])
  obtain ⟨fuel, hrun⟩ := hreach.returns hend
  exact ⟨fuel, hrun⟩

end RustRimraf

end MinionAgent
