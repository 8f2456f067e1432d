import Mathlib.Data.List.Basic
import Mathlib.Tactic.Common

/-!
# MinionAgent.Execution.Disk

A disk nobody else changes, as recursive removal sees it: what it holds, which
of its calls fail, and the calls themselves.

* `Disk` — the entries of a disk, and the faults of its calls;
* `Disk.resolve`, `Disk.locate` — where a path leads, and the entry it names;
* `Disk.lstat`, `Disk.stat`, `Disk.unlink`, `Disk.rmdir`, `Disk.readdir`,
  `Disk.chmod` — the calls;
* `Disk.entry_of_locate`, `Disk.locate_child` — the calls on an entry by its
  address, and the address of a child.
-/

namespace MinionAgent

/-! ## Entries and faults -/

inductive Platform
  | posix
  | windows
deriving DecidableEq

/-- The failures of a call, as removal tells them apart.  On Windows
`notFound` is what libuv calls `ENOENT` (267, the answer of `rmdir` on a file,
included), and `notPermitted` is 5 and 1314. -/
inductive OsError
  | notFound
  | notDirectory
  | notEmpty
  | alreadyExists
  | notPermitted
  | isDirectory
  | tooManyLinks
  | other (code : Nat)
deriving DecidableEq

/-- A path, its last name first. -/
abbrev FsPath := List String

/-- What an entry is.  A junction is a link. -/
inductive EntryKind
  | file
  | link (target : FsPath)
  | directory
deriving DecidableEq

/-- The calls that may have a fault of their own. -/
inductive FsCall
  | lstat
  | unlink
  | rmdir
  | readdir
  | chmod
deriving DecidableEq

/-- A disk.  `names` is what a directory lists, in its order; `fault` is the
error that a call on an entry always fails with.  `unlink` of a directory
answers `EISDIR` where `answersIsDirectory` says so and `EPERM` elsewhere, and
`rmdir` of a link removes it where `directoryLink` says so (a Windows link with
the directory attribute). -/
structure Disk where
  platform : Platform
  /-- How many links are followed before a call gives up. -/
  linkLimit : Nat
  /-- What is at an address, if anything is. -/
  kind : FsPath → Option EntryKind
  names : FsPath → List String
  fault : FsCall → FsPath → Option OsError
  answersIsDirectory : FsPath → Bool
  directoryLink : FsPath → Bool
  /-- No address of an entry is longer. -/
  depth : Nat
  /-- The root is a directory, and an entry is where its directory lists it. -/
  kind_nil : kind [] = some .directory
  kind_cons : ∀ name p, (kind (name :: p)).isSome ↔ kind p = some .directory ∧ name ∈ names p
  names_nodup : ∀ p, (names p).Nodup
  length_le : ∀ p, (kind p).isSome → p.length ≤ depth
  /-- A call on an entry never answers that nothing is there. -/
  fault_ne_notFound : ∀ call p, fault call p ≠ some .notFound
  rmdir_ne_notDirectory : ∀ p, kind p = some .directory → fault .rmdir p ≠ some .notDirectory

/-- The entries that have been removed. -/
abbrev Gone := List FsPath

namespace Disk

variable (d : Disk) (gone : Gone)

/-- What is at an address now. -/
def present (q : FsPath) : Option EntryKind := if q ∈ gone then none else d.kind q

/-- The names a directory has now. -/
def children (q : FsPath) : List String := (d.names q).filter fun name => name :: q ∉ gone

/-! ## Paths -/

/-- The address of a name in a directory. -/
def lookup (name : String) (dir : FsPath) : Except OsError FsPath :=
  match d.present gone dir with
  | some .directory => .ok (name :: dir)
  | _ => .error .notDirectory

/-- Goes on from an address: through a link, while links may be followed. -/
def follow (next : Nat → FsPath → Except OsError (FsPath × Nat)) (budget : Nat) (q : FsPath) :
    Except OsError (FsPath × Nat) :=
  match d.present gone q with
  | none => .error .notFound
  | some (.link target) =>
    match budget with
    | 0 => .error .tooManyLinks
    | budget + 1 => next budget target
  | some _ => .ok (q, budget)

/-- Walks a path from the root, following every link. -/
def walk (next : Nat → FsPath → Except OsError (FsPath × Nat)) (budget : Nat) : FsPath → Except OsError (FsPath × Nat)
  | [] => .ok ([], budget)
  | name :: p =>
    match walk next budget p with
    | .error e => .error e
    | .ok (dir, budget) =>
      match d.lookup gone name dir with
      | .error e => .error e
      | .ok q => d.follow gone next budget q

/-- What a link's target leads to, `fuel` links deep. -/
def target : Nat → Nat → FsPath → Except OsError (FsPath × Nat)
  | 0 => fun _ _ => .error .tooManyLinks
  | fuel + 1 => fun budget p => d.walk gone (target fuel) budget p

/-- Where a path leads, with the number of links that may still be followed. -/
def resolve (p : FsPath) : Except OsError (FsPath × Nat) :=
  d.walk gone (d.target gone d.linkLimit) d.linkLimit p

/-- The address of the entry a path names: its last name is not followed. -/
def locate : FsPath → Except OsError (FsPath × Nat)
  | [] => .ok ([], d.linkLimit)
  | name :: p =>
    match d.resolve gone p with
    | .error e => .error e
    | .ok (dir, budget) =>
      match d.lookup gone name dir with
      | .error e => .error e
      | .ok q => .ok (q, budget)

/-! ## Calls -/

/-- The entry a call is made on, unless the path names none or the call fails
with its own error. -/
def entry (call : FsCall) (p : FsPath) : Except OsError (FsPath × EntryKind) :=
  match d.locate gone p with
  | .error e => .error e
  | .ok (q, _) =>
    match d.present gone q, d.fault call q with
    | none, _ => .error .notFound
    | some _, some e => .error e
    | some kind, none => .ok (q, kind)

def lstat (p : FsPath) : Except OsError EntryKind := (d.entry gone .lstat p).map Prod.snd

/-- `chmod` of the entry itself. -/
def chmod (p : FsPath) : Except OsError Unit := (d.entry gone .chmod p).map fun _ => ()

/-- `stat` follows links. -/
def stat (p : FsPath) : Except OsError EntryKind :=
  match d.resolve gone p with
  | .error e => .error e
  | .ok (q, _) =>
    match d.present gone q with
    | none => .error .notFound
    | some kind => .ok kind

/-- What `unlink` of a directory answers. -/
def unlinkRefusal (q : FsPath) : OsError :=
  if d.platform = .posix ∧ d.answersIsDirectory q then .isDirectory else .notPermitted

/-- `unlink`, with the entries gone after it. -/
def unlink (p : FsPath) : Except OsError Gone :=
  match d.entry gone .unlink p with
  | .error e => .error e
  | .ok (q, .directory) => .error (d.unlinkRefusal q)
  | .ok (q, _) => .ok (q :: gone)

/-- What `rmdir` of something else than a directory answers: `ENOTDIR`, and on
Windows 267. -/
def rmdirRefusal : OsError :=
  match d.platform with
  | .posix => .notDirectory
  | .windows => .notFound

/-- `rmdir`, with the entries gone after it. -/
def rmdir (p : FsPath) : Except OsError Gone :=
  match d.entry gone .rmdir p with
  | .error e => .error e
  | .ok (q, .directory) => if d.children gone q = [] then .ok (q :: gone) else .error .notEmpty
  | .ok (q, .link _) => if d.platform = .windows ∧ d.directoryLink q then .ok (q :: gone) else .error d.rmdirRefusal
  | .ok (_, .file) => .error d.rmdirRefusal

/-- The paths a directory lists.  Listing follows links. -/
def readdir (p : FsPath) : Except OsError (List FsPath) :=
  match d.resolve gone p with
  | .error e => .error e
  | .ok (q, _) =>
    match d.present gone q, d.fault .readdir q with
    | some .directory, none => .ok ((d.children gone q).map (· :: p))
    | some .directory, some e => .error e
    | some _, _ => .error .notDirectory
    | none, _ => .error .notFound

/-! ## Entries -/

variable {d gone}

variable {p q : FsPath} {name : String} {kind : EntryKind} {budget : Nat} {e : OsError}

theorem present_eq_some : d.present gone q = some kind ↔ q ∉ gone ∧ d.kind q = some kind := by
  simp [present]

theorem mem_children : name ∈ d.children gone q ↔ name ∈ d.names q ∧ name :: q ∉ gone := by
  simp [children]

/-- A name of a directory is one of its entries. -/
theorem isSome_kind_of_mem (hq : d.kind q = some .directory) (hname : name ∈ d.names q) :
    (d.kind (name :: q)).isSome :=
  (d.kind_cons name q).mpr ⟨hq, hname⟩

/-- A call on an entry fails with its own error or goes on. -/
theorem entry_of_locate {call : FsCall} (hp : d.locate gone p = .ok (q, budget))
    (hq : d.present gone q = some kind) :
    d.entry gone call p = match d.fault call q with | some e => .error e | none => .ok (q, kind) := by
  simp only [entry, hp, hq]
  cases d.fault call q <;> rfl

/-! ## Addresses -/

theorem resolve_cons (name : String) (p : FsPath) :
    d.resolve gone (name :: p) = match d.locate gone (name :: p) with
      | .error e => .error e
      | .ok (q, budget) => d.follow gone (d.target gone d.linkLimit) budget q := by
  simp only [resolve, locate, walk]
  cases d.walk gone (d.target gone d.linkLimit) d.linkLimit p with
  | error e => rfl
  | ok reached =>
    simp only []
    cases d.lookup gone name reached.1 <;> rfl

theorem follow_of_ne_link {next : Nat → FsPath → Except OsError (FsPath × Nat)}
    (hq : d.present gone q = some kind) (hkind : ∀ target, kind ≠ .link target) :
    d.follow gone next budget q = .ok (q, budget) := by
  cases kind with
  | file => simp [follow, hq]
  | link target => exact absurd rfl (hkind target)
  | directory => simp [follow, hq]

/-- A path that names something else than a link leads to it. -/
theorem resolve_of_locate (hp : d.locate gone p = .ok (q, budget)) (hq : d.present gone q = some kind)
    (hkind : ∀ target, kind ≠ .link target) : d.resolve gone p = .ok (q, budget) := by
  cases p with
  | nil =>
    cases hp
    rfl
  | cons name p =>
    simp only [resolve_cons, hp]
    exact follow_of_ne_link hq hkind

theorem locate_cons :
    d.locate gone (name :: p) = .ok (q, budget) ↔
      ∃ dir, d.resolve gone p = .ok (dir, budget) ∧ d.present gone dir = some .directory ∧ q = name :: dir := by
  rw [locate]
  cases d.resolve gone p with
  | error e => simp
  | ok reached =>
    obtain ⟨dir, left⟩ := reached
    simp only [lookup]
    split <;> grind

/-- The address of an entry of a directory. -/
theorem locate_child (hp : d.locate gone p = .ok (q, budget)) (hq : d.present gone q = some .directory)
    (name : String) : d.locate gone (name :: p) = .ok (name :: q, budget) :=
  locate_cons.mpr ⟨q, resolve_of_locate hp hq (by simp), hq, rfl⟩

/-! ## Following links -/

variable {next : Nat → FsPath → Except OsError (FsPath × Nat)}

theorem follow_le (hnext : ∀ b p q b', next b p = .ok (q, b') → b' ≤ b) {r : FsPath} {budget' : Nat}
    (h : d.follow gone next budget q = .ok (r, budget')) : budget' ≤ budget := by
  simp only [follow] at h
  split at h
  · cases h
  · split at h
    · cases h
    · exact Nat.le_succ_of_le (hnext _ _ _ _ h)
  · cases h
    exact Nat.le_refl budget

theorem walk_le (hnext : ∀ b p q b', next b p = .ok (q, b') → b' ≤ b) {budget' : Nat}
    (h : d.walk gone next budget p = .ok (q, budget')) : budget' ≤ budget := by
  induction p generalizing q budget' with
  | nil =>
    cases h
    exact Nat.le_refl budget
  | cons name p ih =>
    simp only [walk] at h
    split at h
    · cases h
    · rename_i dir left hwalk
      split at h
      · cases h
      · exact Nat.le_trans (follow_le hnext h) (ih hwalk)

theorem target_le {fuel budget' : Nat} (h : d.target gone fuel budget p = .ok (q, budget')) : budget' ≤ budget := by
  induction fuel generalizing budget budget' p q with
  | zero => cases h
  | succ fuel ih => exact walk_le (fun _ _ _ _ => ih) h

/-- Following a link takes from the links that may be followed. -/
theorem follow_lt {r : FsPath} {fuel budget' : Nat}
    (h : d.follow gone (d.target gone fuel) budget q = .ok (r, budget')) :
    r = q ∧ budget' = budget ∨ budget' < budget := by
  simp only [follow] at h
  split at h
  · cases h
  · split at h
    · cases h
    · exact .inr (Nat.lt_succ_of_le (target_le h))
  · cases h
    exact .inl ⟨rfl, rfl⟩

/-- Where a path leads, from the entry it names: the entry itself, or through
links. -/
theorem locate_of_resolve {r : FsPath} {budget' : Nat} (h : d.resolve gone p = .ok (r, budget')) :
    ∃ q budget, d.locate gone p = .ok (q, budget) ∧ (r = q ∧ budget' = budget ∨ budget' < budget) := by
  cases p with
  | nil =>
    cases h
    exact ⟨[], d.linkLimit, rfl, .inl ⟨rfl, rfl⟩⟩
  | cons name p =>
    rw [resolve_cons] at h
    cases hlocate : d.locate gone (name :: p) with
    | error e => simp [hlocate] at h
    | ok reached =>
      rw [hlocate] at h
      exact ⟨reached.1, reached.2, rfl, follow_lt h⟩

theorem locate_le (h : d.locate gone p = .ok (q, budget)) : budget ≤ d.linkLimit := by
  cases p with
  | nil =>
    cases h
    exact Nat.le_refl _
  | cons name p =>
    obtain ⟨dir, hresolve, -, -⟩ := locate_cons.mp h
    exact walk_le (fun _ _ _ _ => target_le) hresolve

/-! ## Paths that lead nowhere -/

/-- The errors of a path that leads nowhere. -/
def IsPathError (e : OsError) : Prop := e = .notFound ∨ e = .notDirectory ∨ e = .tooManyLinks

theorem lookup_error {dir : FsPath} (h : d.lookup gone name dir = .error e) : IsPathError e := by
  simp only [lookup] at h
  split at h
  · cases h
  · cases h
    exact .inr (.inl rfl)

theorem follow_error (hnext : ∀ b p e, next b p = .error e → IsPathError e)
    (h : d.follow gone next budget q = .error e) : IsPathError e := by
  simp only [follow] at h
  split at h
  · cases h
    exact .inl rfl
  · split at h
    · cases h
      exact .inr (.inr rfl)
    · exact hnext _ _ _ h
  · cases h

theorem walk_error (hnext : ∀ b p e, next b p = .error e → IsPathError e)
    (h : d.walk gone next budget p = .error e) : IsPathError e := by
  induction p generalizing e with
  | nil => cases h
  | cons name p ih =>
    simp only [walk] at h
    split at h
    · rename_i e' hwalk
      cases h
      exact ih hwalk
    · split at h
      · rename_i e' hlookup
        cases h
        exact lookup_error hlookup
      · exact follow_error hnext h

theorem target_error {fuel : Nat} (h : d.target gone fuel budget p = .error e) : IsPathError e := by
  induction fuel generalizing budget p e with
  | zero =>
    cases h
    exact .inr (.inr rfl)
  | succ fuel ih => exact walk_error (fun _ _ _ => ih) h

theorem locate_error (h : d.locate gone p = .error e) : IsPathError e := by
  cases p with
  | nil => cases h
  | cons name p =>
    simp only [locate] at h
    split at h
    · rename_i e' hresolve
      cases h
      exact walk_error (fun _ _ _ => target_error) hresolve
    · split at h
      · rename_i e' hlookup
        cases h
        exact lookup_error hlookup
      · cases h

/-- A call fails with the error of its path or with its own. -/
theorem entry_error {call : FsCall} (h : d.entry gone call p = .error e) :
    IsPathError e ∨ ∃ q, d.fault call q = some e := by
  simp only [entry] at h
  split at h
  · rename_i e' hlocate
    cases h
    exact .inl (locate_error hlocate)
  · rename_i q budget hlocate
    split at h
    · cases h
      exact .inl (.inl rfl)
    · rename_i hfault
      cases h
      exact .inr ⟨q, hfault⟩
    · cases h

/-! ## How far a walk can go -/

/-- How far a walk can go from an address: down to the deepest entry, once for
every link that may still be followed. -/
def room (d : Disk) (q : FsPath) (budget : Nat) : Nat := budget * (d.depth + 2) + (d.depth + 1 - q.length)

/-- Less than so much room is left wherever a path leads. -/
def Within (d : Disk) (bound : Nat) (p : FsPath) : Prop :=
  ∀ gone q budget, d.locate gone p = .ok (q, budget) → d.room q budget < bound

theorem exists_within (d : Disk) (p : FsPath) : ∃ bound, d.Within bound p := by
  refine ⟨d.linkLimit * (d.depth + 2) + (d.depth + 2), fun gone q budget h => ?_⟩
  have hle := Nat.mul_le_mul_right (d.depth + 2) (locate_le h)
  simp only [room]
  omega

/-- What a directory lists is nearer to the end of the walk than the
directory. -/
theorem Within.child {bound : Nat} (h : d.Within (bound + 1) p) (name : String) : d.Within bound (name :: p) := by
  intro gone q budget hlocate
  obtain ⟨dir, hresolve, hdir, rfl⟩ := locate_cons.mp hlocate
  obtain ⟨q, budget', hp, hwhere⟩ := locate_of_resolve hresolve
  have hroom := h gone q budget' hp
  have hdepth : dir.length ≤ d.depth := d.length_le dir (by simp [(present_eq_some.mp hdir).2])
  simp only [room, List.length_cons] at hroom ⊢
  rcases hwhere with ⟨rfl, rfl⟩ | hless
  · omega
  · have hle := Nat.mul_le_mul_right (d.depth + 2) hless
    rw [Nat.succ_mul] at hle
    omega

/-- No walk goes on where no room is left. -/
theorem Within.readdir (h : d.Within 0 p) : ∀ paths, d.readdir gone p ≠ .ok paths := by
  intro paths hlist
  simp only [Disk.readdir] at hlist
  split at hlist
  · cases hlist
  · rename_i q budget hresolve
    obtain ⟨q, budget, hlocate, -⟩ := locate_of_resolve hresolve
    exact absurd (h gone q budget hlocate) (Nat.not_lt_zero _)

end Disk

end MinionAgent
