import MinionAgent.Execution.PosixPath

/-!
# MinionAgent.Execution.Listing

`list_dir` in `execution/filesystem.py` and in `execution/filesystem.rs`, on POSIX: a
loop over the entries of a directory with a checkpoint of the abort signal before each,
in which an entry is classified by its `lstat`.

* `expected` — what a listing is to be: entries of other kinds are skipped, a failed
  `lstat` or the signal ends it;
* `Python.listDir_eq` — the one binding lists so;
* `Rust.listDir_cases` — the other lists so where no entry of another kind is reached;
* `agree_iff` — when both list the same, times in whole milliseconds.
-/

namespace MinionAgent.Listing

open Rfc8259 (CodePoint codePoint)
open PathStack (push eval Plain components text)
open PathResolve PosixPath

/-! ## What the host knows -/

/-- What a file can be. -/
inductive FileType
  | regular
  | directory
  | symlink
  | fifo
  | socket
  | characterDevice
  | blockDevice
deriving DecidableEq

/-- The error numbers that are told apart. -/
inductive Errno
  | enoent
  | eacces
  | eperm
  | enotdir
  | eisdir
  | einval
  | other (number : Nat)
deriving DecidableEq

/-- A stat result; the modification time is in nanoseconds from the epoch. -/
structure Stat where
  type : FileType
  size : Nat
  mtime : Int
deriving DecidableEq

/-- A name in a directory, and what `lstat` says of it. -/
structure Entry where
  name : PathUnits
  lstat : Except Errno Stat
  plain : Plain 46 name
  single : ∀ unit ∈ name, sep unit false = false

/-- An abort signal, as it is at the checkpoints: the first is before the listing, and
one is before each entry. -/
abbrev Signal := Option (Nat → Bool)

/-- `signal is not None and signal.aborted`, at a checkpoint. -/
def abortedAt (signal : Signal) (checkpoint : Nat) : Bool := signal.any (· checkpoint)

/-! ## What is returned -/

/-- `FileKind`. -/
inductive FileKind
  | file
  | directory
  | symlink
deriving DecidableEq

/-- `FileInfo`; each binding has its own numbers for times. -/
structure FileInfo (path time : Type) where
  name : path
  path : path
  kind : FileKind
  size : Nat
  mtimeMs : time
deriving DecidableEq

/-- `FsErrorCode`, as far as a listing has it. -/
inductive FsErrorCode
  | aborted
  | notFound
  | permissionDenied
  | notDirectory
  | isDirectory
  | invalid
  | unknown
deriving DecidableEq

/-- `FsError`. -/
structure FsError (path : Type) where
  code : FsErrorCode
  message : String
  path : path
deriving DecidableEq

/-! ## Python -/

namespace Python

/-- What an operation raises inside. -/
inductive Raised
  | abortedSignal
  | unsupportedFileType
  | osError (errno : Errno) (filename : Text)

/-- What the host adds to results: the milliseconds of a time in its floating-point
numbers (`st_mtime * 1000`), the whole part of such a number, and the text of an error. -/
structure Texts (time : Type) where
  millis : Int → time
  whole : time → Int
  describe : Errno → Text → String

/-- A surrogate gives way to U+FFFD. -/
def scalarValue (c : CodePoint) : CodePoint := if 0xD800 ≤ c.val ∧ c.val ≤ 0xDFFF then codePoint 0xFFFD else c

/-- `native_path`: a valid pair is one character, and an unpaired surrogate is replaced. -/
def nativePath (path : Text) : Text := (decode16 (Utf16.toUnits path)).map scalarValue

/-- `os.path.basename`. -/
def basename (path : Text) : Text := (path.reverse.takeWhile (· != slashPoint)).reverse

/-- `_file_kind_from_stat`. -/
def fileKindFromStat (st : Stat) : Option FileKind :=
  if st.type = .regular then some .file
  else if st.type = .directory then some .directory
  else if st.type = .symlink then some .symlink
  else none

variable {time : Type} (texts : Texts time)

/-- `_file_info_sync`, given what `os.lstat` says. -/
def fileInfoSync (path : Text) : Except Errno Stat → Except Raised (FileInfo Text time)
  | .error errno => .error (.osError errno (nativePath path))
  | .ok st =>
    match fileKindFromStat st with
    | none => .error .unsupportedFileType
    | some kind => .ok { name := basename path, path, kind, size := st.size, mtimeMs := texts.millis st.mtime }

/-- The loop of `_list_dir_sync`. -/
def listLoop (path : Text) (signal : Signal) :
    Nat → List Entry → List (FileInfo Text time) → Except Raised (List (FileInfo Text time))
  | _, [], infos => .ok infos
  | checkpoint, entry :: entries, infos =>
    if abortedAt signal checkpoint then .error .abortedSignal
    else
      match fileInfoSync texts (osJoin path (decode16 entry.name)) entry.lstat with
      | .ok info => listLoop path signal (checkpoint + 1) entries (infos ++ [info])
      | .error .unsupportedFileType => listLoop path signal (checkpoint + 1) entries infos
      | .error raised => .error raised

/-- `_list_dir_sync`, given what `os.scandir` says. -/
def listDirSync (path : Text) (signal : Signal) (content : Except Errno (List Entry)) :
    Except Raised (List (FileInfo Text time)) :=
  if abortedAt signal 0 then .error .abortedSignal
  else
    match content with
    | .error errno => .error (.osError errno (nativePath path))
    | .ok entries => listLoop texts path signal 1 entries []

/-- `to_fs_error`. -/
def toFsError (errno : Errno) (path : Text) : FsError Text :=
  { message := texts.describe errno path
    path
    code :=
      match errno with
      | .enoent => .notFound
      | .eacces | .eperm => .permissionDenied
      | .enotdir => .notDirectory
      | .eisdir => .isDirectory
      | .einval => .invalid
      | .other _ => .unknown }

/-- `list_dir` of a resolved path: an exception, or a `Result`. -/
def listDir (resolved : Text) (signal : Signal) (content : Except Errno (List Entry)) :
    Except Raised (Except (FsError Text) (List (FileInfo Text time))) :=
  match listDirSync texts resolved signal content with
  | .ok infos => .ok (.ok infos)
  | .error .abortedSignal => .ok (.error { code := .aborted, message := "aborted", path := resolved })
  | .error (.osError errno filename) => .ok (.error (toFsError texts errno filename))
  | .error .unsupportedFileType => .error .unsupportedFileType

end Python

/-! ## Rust -/

namespace Rust

/-- `String::from_utf16_lossy`, in units again. -/
def lossy (path : PathUnits) : PathUnits := Utf16.toUnits ((decode16 path).map Python.scalarValue)

/-- `basename`. -/
def basename (path : PathUnits) : PathUnits := (path.reverse.takeWhile fun unit => !sep unit false).reverse

/-- The number of an error. -/
def number : Errno → Nat
  | .eperm => 1
  | .enoent => 2
  | .eacces => 13
  | .enotdir => 20
  | .eisdir => 21
  | .einval => 22
  | .other number => number

/-- The text of an `io::Error` of the system, whose own text is the host's. -/
def errorText (strerror : Errno → String) (errno : Errno) : String :=
  strerror errno ++ " (os error " ++ toString (number errno) ++ ")"

/-- `map_fs_error`. -/
def mapFsError (strerror : Errno → String) (errno : Errno) (path : PathUnits) : FsError PathUnits :=
  { message := errorText strerror errno
    path
    code :=
      match errno with
      | .enoent => .notFound
      | .eacces | .eperm => .permissionDenied
      | .enotdir => .notDirectory
      | .eisdir => .isDirectory
      | .einval => .invalid
      | .other _ => .unknown }

/-- Whole milliseconds from the epoch in 64 bits, none before it. -/
def wholeMillis (mtime : Int) : Nat := if 0 ≤ mtime then mtime.toNat / 1000000 % 2 ^ 64 else 0

/-- `info_for`, given what `symlink_metadata` says. -/
def infoFor (strerror : Errno → String) (logical : PathUnits) :
    Except Errno Stat → Except (FsError PathUnits) (FileInfo PathUnits Nat)
  | .error errno => .error (mapFsError strerror errno (lossy logical))
  | .ok st =>
    let info (kind : FileKind) : FileInfo PathUnits Nat :=
      { name := basename logical, path := logical, kind, size := st.size, mtimeMs := wholeMillis st.mtime }
    if st.type = .symlink then .ok (info .symlink)
    else if st.type = .directory then .ok (info .directory)
    else if st.type = .regular then .ok (info .file)
    else .error { code := .invalid, message := "unsupported file type", path := logical }

/-- `LocalFileSystem::aborted`. -/
def aborted (signal : Signal) (checkpoint : Nat) (logical : PathUnits) : Except (FsError PathUnits) Unit :=
  if abortedAt signal checkpoint then .error { code := .aborted, message := "operation aborted", path := logical }
  else .ok ()

/-- The loop of `list_dir`. -/
def listLoop (strerror : Errno → String) (logical : PathUnits) (signal : Signal) :
    Nat → List Entry → List (FileInfo PathUnits Nat) → Except (FsError PathUnits) (List (FileInfo PathUnits Nat))
  | _, [], infos => .ok infos
  | checkpoint, entry :: entries, infos =>
    match aborted signal checkpoint logical with
    | .error e => .error e
    | .ok () =>
      match infoFor strerror (join [logical, entry.name] false) entry.lstat with
      | .error e => .error e
      | .ok info => listLoop strerror logical signal (checkpoint + 1) entries (infos ++ [info])

/-- `list_dir` of a resolved path, given what `read_dir_names` says. -/
def listDir (strerror : Errno → String) (logical : PathUnits) (signal : Signal) (content : Except Errno (List Entry)) :
    Except (FsError PathUnits) (List (FileInfo PathUnits Nat)) :=
  match aborted signal 0 logical with
  | .error e => .error e
  | .ok () =>
    match content with
    | .error errno => .error (mapFsError strerror errno (lossy logical))
    | .ok entries => listLoop strerror logical signal 1 entries []

end Rust

/-! ## What a listing is to be -/

/-- The kind of an entry that is listed. -/
def kindOf : FileType → Option FileKind
  | .regular => some .file
  | .directory => some .directory
  | .symlink => some .symlink
  | .fifo | .socket | .characterDevice | .blockDevice => none

/-- The code of an error number. -/
def codeOf : Errno → FsErrorCode
  | .enoent => .notFound
  | .eacces | .eperm => .permissionDenied
  | .enotdir => .notDirectory
  | .eisdir => .isDirectory
  | .einval => .invalid
  | .other _ => .unknown

/-- What ends a listing early. -/
inductive Stop
  | aborted
  | directory (errno : Errno)
  | entry (name : PathUnits) (errno : Errno)
deriving DecidableEq

/-- An entry that is listed. -/
structure Listed where
  name : PathUnits
  kind : FileKind
  stat : Stat
deriving DecidableEq

/-- The entries from a checkpoint on: those of a kind, up to a failed `lstat` or the signal. -/
def expectedFrom (signal : Signal) : Nat → List Entry → Except Stop (List Listed)
  | _, [] => .ok []
  | checkpoint, entry :: entries =>
    if abortedAt signal checkpoint then .error .aborted
    else
      match entry.lstat with
      | .error errno => .error (.entry entry.name errno)
      | .ok stat =>
        match kindOf stat.type with
        | none => expectedFrom signal (checkpoint + 1) entries
        | some kind => (expectedFrom signal (checkpoint + 1) entries).map ({ name := entry.name, kind, stat } :: ·)

/-- The listing of a directory. -/
def expected (signal : Signal) (content : Except Errno (List Entry)) : Except Stop (List Listed) :=
  if abortedAt signal 0 then .error .aborted
  else
    match content with
    | .error errno => .error (.directory errno)
    | .ok entries => expectedFrom signal 1 entries

/-- How a binding writes paths, times and messages. -/
structure Format (path time : Type) where
  text : PathUnits → path
  millis : Int → time
  aborted : String
  message : Errno → path → String

variable {path time : Type}

/-- The path of an entry. -/
def entryPath (directory name : PathUnits) : PathUnits := join [directory, name] false

/-- The `FileInfo` of an entry that is listed. -/
def Format.info (format : Format path time) (directory : PathUnits) (entry : Listed) : FileInfo path time where
  name := format.text entry.name
  path := format.text (entryPath directory entry.name)
  kind := entry.kind
  size := entry.stat.size
  mtimeMs := format.millis entry.stat.mtime

/-- The error of what ended a listing; a failed call is reported at its native path. -/
def Format.error (format : Format path time) (directory : PathUnits) : Stop → FsError path
  | .aborted => { code := .aborted, message := format.aborted, path := format.text directory }
  | .directory errno =>
    let native := format.text (Rust.lossy directory)
    { code := codeOf errno, message := format.message errno native, path := native }
  | .entry name errno =>
    let native := format.text (Rust.lossy (entryPath directory name))
    { code := codeOf errno, message := format.message errno native, path := native }

/-- A listing as a binding returns it. -/
def Format.result (format : Format path time) (directory : PathUnits) (listing : Except Stop (List Listed)) :
    Except (FsError path) (List (FileInfo path time)) :=
  match listing with
  | .ok entries => .ok (entries.map (format.info directory))
  | .error stop => .error (format.error directory stop)

/-- Python's strings, times and messages. -/
def Python.format (texts : Python.Texts time) : Format Text time where
  text := decode16
  millis := texts.millis
  aborted := "aborted"
  message := texts.describe

/-- Rust's strings, times and messages. -/
def Rust.format (strerror : Errno → String) : Format PathUnits Nat where
  text := id
  millis := Rust.wholeMillis
  aborted := "operation aborted"
  message := fun errno _ => Rust.errorText strerror errno

/-- The same strings and messages, with times in whole milliseconds. -/
def Format.exact (format : Format path time) : Format path Int where
  text := format.text
  millis := fun mtime => mtime / 1000000
  aborted := format.aborted
  message := format.message

/-- The whole milliseconds of what a listing returns. -/
def wholeTimes (whole : time → Int) (result : Except (FsError path) (List (FileInfo path time))) :
    Except (FsError path) (List (FileInfo path Int)) :=
  result.map (List.map fun info =>
    { name := info.name, path := info.path, kind := info.kind, size := info.size, mtimeMs := whole info.mtimeMs })

/-- A listing has the exact times just when every time that it returns is exact. -/
theorem wholeTimes_result (format : Format path time) (whole : time → Int) (directory : PathUnits)
    (listing : Except Stop (List Listed)) :
    wholeTimes whole (format.result directory listing) = format.exact.result directory listing ↔
      ∀ listed, listing = .ok listed → ∀ entry ∈ listed,
        whole (format.millis entry.stat.mtime) = entry.stat.mtime / 1000000 := by
  cases listing with
  | error stop => exact iff_of_true (by cases stop <;> rfl) (by simp)
  | ok listed =>
    simp only [wholeTimes, Format.result, Except.map, List.map_map, Except.ok.injEq, List.map_inj_left]
    constructor
    · rintro h _ rfl entry hentry
      exact congrArg FileInfo.mtimeMs (h entry hentry)
    · intro h entry hentry
      have htime := h listed rfl entry hentry
      simp only [Function.comp_apply, Format.info, htime]
      rfl

/-- No entry of another kind is reached: the signal, or a failed `lstat`, comes before it. -/
def OthersUnreached (signal : Signal) (checkpoint : Nat) (entries : List Entry) : Prop :=
  ∀ i entry stat, entries[i]? = some entry → entry.lstat = .ok stat → kindOf stat.type = none →
    (∃ j ≤ i, abortedAt signal (checkpoint + j) = true) ∨
      ∃ j < i, ∃ failing errno, entries[j]? = some failing ∧ failing.lstat = .error errno

theorem othersUnreached_of_failed {signal : Signal} {checkpoint : Nat} {entry : Entry} {errno : Errno}
    (h : entry.lstat = .error errno) (entries : List Entry) : OthersUnreached signal checkpoint (entry :: entries) := by
  intro i other stat hother hstat _
  cases i with
  | zero =>
    obtain rfl : entry = other := Option.some.inj hother
    exact nomatch h.symm.trans hstat
  | succ i => exact .inr ⟨0, Nat.zero_lt_succ i, entry, errno, rfl, h⟩

theorem not_othersUnreached {signal : Signal} {checkpoint : Nat} {entry : Entry} {stat : Stat}
    (haborted : ¬abortedAt signal checkpoint = true) (h : entry.lstat = .ok stat) (hkind : kindOf stat.type = none)
    (entries : List Entry) : ¬OthersUnreached signal checkpoint (entry :: entries) := by
  intro hall
  cases hall 0 entry stat rfl h hkind with
  | inl hsignal =>
    obtain ⟨j, hj, hsignal⟩ := hsignal
    obtain rfl : j = 0 := by omega
    exact haborted hsignal
  | inr hfailed =>
    obtain ⟨j, hj, -⟩ := hfailed
    omega

theorem othersUnreached_cons {signal : Signal} {checkpoint : Nat} {entry : Entry} {stat : Stat} {kind : FileKind}
    (haborted : ¬abortedAt signal checkpoint = true) (h : entry.lstat = .ok stat) (hkind : kindOf stat.type = some kind)
    (entries : List Entry) :
    OthersUnreached signal checkpoint (entry :: entries) ↔ OthersUnreached signal (checkpoint + 1) entries := by
  constructor
  · intro hall i other stat' hother hstat' hkind'
    cases hall (i + 1) other stat' hother hstat' hkind' with
    | inl hsignal =>
      obtain ⟨j, hj, hsignal⟩ := hsignal
      cases j with
      | zero => exact absurd hsignal haborted
      | succ j => exact .inl ⟨j, by omega, by rw [← hsignal, Nat.add_right_comm]; rfl⟩
    | inr hfailed =>
      obtain ⟨j, hj, failing, errno, hfailing, herror⟩ := hfailed
      cases j with
      | zero =>
        obtain rfl : entry = failing := Option.some.inj hfailing
        exact nomatch h.symm.trans herror
      | succ j => exact .inr ⟨j, by omega, failing, errno, hfailing, herror⟩
  · intro hall i other stat' hother hstat' hkind'
    cases i with
    | zero =>
      obtain rfl : entry = other := Option.some.inj hother
      obtain rfl : stat = stat' := Except.ok.inj (h.symm.trans hstat')
      exact nomatch hkind.symm.trans hkind'
    | succ i =>
      cases hall i other stat' hother hstat' hkind' with
      | inl hsignal =>
        obtain ⟨j, hj, hsignal⟩ := hsignal
        exact .inl ⟨j + 1, by omega, by rw [← hsignal, Nat.add_right_comm]; rfl⟩
      | inr hfailed =>
        obtain ⟨j, hj, failing, errno, hfailing, herror⟩ := hfailed
        exact .inr ⟨j + 1, by omega, failing, errno, hfailing, herror⟩

/-! ## Paths of entries -/

theorem scalarValue_isValid (c : CodePoint) : ∃ char, Python.scalarValue c = codePointOf char := by
  rw [Python.scalarValue]
  split_ifs with hsurrogate
  · exact ⟨Char.ofNat 0xFFFD, by decide⟩
  · cases hscalar : scalar? c with
    | none =>
      have := surrogate_of_scalar? hscalar
      omega
    | some char => exact ⟨char, eq_of_scalar? hscalar⟩

/-- The native path is the same text in both bindings. -/
theorem nativePath_decode16 (units : PathUnits) : Python.nativePath (decode16 units) = decode16 (Rust.lossy units) := by
  have hchars : ∃ chars : List Char, (decode16 units).map Python.scalarValue = chars.map codePointOf := by
    induction decode16 units with
    | nil => exact ⟨[], rfl⟩
    | cons c text ih =>
      obtain ⟨chars, hchars⟩ := ih
      obtain ⟨char, hchar⟩ := scalarValue_isValid c
      exact ⟨char :: chars, by rw [List.map_cons, hchars, hchar, List.map_cons]⟩
  obtain ⟨chars, hchars⟩ := hchars
  rw [Python.nativePath, toUnits_decode16, Rust.lossy, hchars, decode16_toUnits]

variable {d : PathUnits}

/-- An entry is one component more. -/
theorem entryPath_eq {cs : List PathUnits} (hcs : ∀ c ∈ cs, Plain 46 c ∧ ∀ unit ∈ c, sep unit false = false)
    (entry : Entry) : entryPath (47 :: text 47 cs) entry.name = 47 :: text 47 (cs ++ [entry.name]) := by
  have hdirectory : eval 46 false (components (sep · false) (47 :: text 47 cs)) = cs :=
    @eval_components_normal false cs hcs
  rw [entryPath, join_directory rfl, PathStack.components_eq_singleton entry.single, ← PathStack.eval_append,
    hdirectory, PathStack.eval_of_plain]
  intro c hc
  cases List.mem_append.mp hc with
  | inl hmem => exact (hcs c hmem).1
  | inr hlast => exact List.mem_singleton.mp hlast ▸ entry.plain

/-- Both bindings put the name of an entry behind the directory, with one slash. -/
theorem entryPath_decode16 (hd : IsNormal false d) (entry : Entry) :
    osJoin (decode16 d) (decode16 entry.name) = decode16 (entryPath d entry.name) ∧
      ∃ front, entryPath d entry.name = front ++ 47 :: entry.name := by
  obtain ⟨device, cs, hdevice, hcs, rfl⟩ := hd
  obtain rfl : device = [] := hdevice
  have hname : isAbsolute entry.name false = false := by
    cases hentry : entry.name with
    | nil => rfl
    | cons unit name =>
      have hunit := entry.single unit (hentry ▸ List.mem_cons_self)
      simp only [sep, Bool.false_and, Bool.or_false] at hunit
      simpa [isAbsolute] using hunit
  have hpath := entryPath_eq hcs entry
  rw [show [] ++ slash false :: text (slash false) cs = 47 :: text 47 cs from rfl, osJoin, isabs_decode16, hname, hpath,
    if_neg (by decide)]
  by_cases hempty : cs = []
  · subst hempty
    refine ⟨?_, [], by simp⟩
    rw [if_pos (.inr ((getLast?_decode16 _).mpr ⟨[], rfl⟩))]
    rw [List.nil_append, PathStack.text_singleton, decode16_cons_single (by decide), PathStack.text_nil,
      decode16_cons_single (by decide)]
    rfl
  · have htext : 47 :: text 47 (cs ++ [entry.name]) = (47 :: text 47 cs) ++ 47 :: entry.name := by
      rw [PathStack.text_concat hempty]
      rfl
    refine ⟨?_, _, htext⟩
    have hopen : ¬(decode16 (47 :: text 47 cs) = [] ∨ (decode16 (47 :: text 47 cs)).getLast? = some slashPoint) := by
      rw [decode16_eq_nil, getLast?_decode16]
      rintro (hnil | ⟨front, hfront⟩)
      · exact absurd hnil (by simp)
      · have hlast : (47 :: text 47 cs).getLast? = some 47 := by rw [hfront, List.getLast?_concat]
        have hne : text 47 cs ≠ [] := PathStack.text_ne_nil (fun c hc => (hcs c hc).1.1) hempty
        rw [show 47 :: text 47 cs = [47] ++ text 47 cs from rfl, List.getLast?_append_of_ne_nil _ hne] at hlast
        exact getLast?_text (fun c hc => ⟨(hcs c hc).1.1, (hcs c hc).2⟩) hlast
    rw [if_neg hopen, htext, decode16_at (by decide), slashPoint]

/-- The name of an entry is the base of its path. -/
theorem basename_entryPath (hd : IsNormal false d) (entry : Entry) :
    Rust.basename (entryPath d entry.name) = entry.name ∧
      Python.basename (decode16 (entryPath d entry.name)) = decode16 entry.name := by
  obtain ⟨-, front, hfront⟩ := entryPath_decode16 hd entry
  have hpoints := not_sepPoint_decode16 entry.single
  rw [hfront, decode16_at (by decide), Rust.basename, Python.basename, List.reverse_append, List.reverse_append,
    List.reverse_cons, List.reverse_cons, List.append_assoc, List.append_assoc, List.singleton_append,
    List.singleton_append]
  constructor
  · rw [List.takeWhile_append_of_pos (by simpa using entry.single), List.takeWhile_cons_of_neg (by decide)]
    simp
  · rw [List.takeWhile_append_of_pos, List.takeWhile_cons_of_neg (by simp [slashPoint])]
    · simp
    · intro c hc
      have hc := hpoints c (List.mem_reverse.mp hc)
      rw [← beq_slashPoint] at hc
      simpa [bne] using hc

/-! ## The bindings -/

namespace Python

variable (texts : Texts time)

theorem fileKindFromStat_eq (st : Stat) : fileKindFromStat st = kindOf st.type := by
  rw [fileKindFromStat]
  cases st.type <;> rfl

/-- What is raised for what ends a listing. -/
def raised (directory : PathUnits) : Stop → Raised
  | .aborted => .abortedSignal
  | .directory errno => .osError errno (decode16 (Rust.lossy directory))
  | .entry name errno => .osError errno (decode16 (Rust.lossy (entryPath directory name)))

/-- The loop lists what is expected behind what it has. -/
theorem listLoop_eq (hd : IsNormal false d) (signal : Signal) (entries : List Entry) (checkpoint : Nat)
    (infos : List (FileInfo Text time)) :
    listLoop texts (decode16 d) signal checkpoint entries infos =
      match expectedFrom signal checkpoint entries with
      | .ok listed => .ok (infos ++ listed.map ((format texts).info d))
      | .error stop => .error (raised d stop) := by
  induction entries generalizing checkpoint infos with
  | nil => simp [listLoop, expectedFrom]
  | cons entry entries ih =>
    rw [listLoop, expectedFrom]
    split_ifs with haborted
    · rfl
    · rw [(entryPath_decode16 hd entry).1]
      cases hstat : entry.lstat with
      | error errno => simp [fileInfoSync, nativePath_decode16, raised]
      | ok st =>
        simp only [fileInfoSync, fileKindFromStat_eq]
        cases hkind : kindOf st.type with
        | none => exact ih (checkpoint + 1) infos
        | some kind =>
          simp only [ih]
          cases expectedFrom signal (checkpoint + 1) entries with
          | error stop => rfl
          | ok listed => simp [Except.map, Format.info, format, (basename_entryPath hd entry).2]

/-- A listing is what it is to be. -/
theorem listDir_eq (hd : IsNormal false d) (signal : Signal) (content : Except Errno (List Entry)) :
    listDir texts (decode16 d) signal content = .ok ((format texts).result d (expected signal content)) := by
  rw [listDir, listDirSync.eq_def, expected.eq_def]
  split_ifs with haborted
  · rfl
  · cases content with
    | error errno =>
      simp only [nativePath_decode16]
      cases errno <;> rfl
    | ok entries =>
      simp only [listLoop_eq texts hd]
      cases expectedFrom signal 1 entries with
      | ok listed => rfl
      | error stop =>
        cases stop with
        | aborted => rfl
        | directory errno => cases errno <;> rfl
        | entry name errno => cases errno <;> rfl

end Python

namespace Rust

variable (strerror : Errno → String)

/-- The error of an entry of another kind. -/
def unsupported (logical : PathUnits) : FsError PathUnits :=
  { code := .invalid, message := "unsupported file type", path := logical }

/-- An entry is classified the same way, but for the kinds that are not listed. -/
theorem infoFor_ok (logical : PathUnits) (st : Stat) :
    infoFor strerror logical (.ok st) =
      match kindOf st.type with
      | some kind =>
        .ok { name := basename logical, path := logical, kind, size := st.size, mtimeMs := wholeMillis st.mtime }
      | none => .error (unsupported logical) := by
  rw [infoFor]
  cases st.type <;> rfl

theorem mapFsError_eq (errno : Errno) (path : PathUnits) :
    mapFsError strerror errno path = { code := codeOf errno, message := errorText strerror errno, path } := by
  cases errno <;> rfl

/-- The text of an error of the system is not that of an entry of another kind. -/
theorem errorText_ne (errno : Errno) : errorText strerror errno ≠ "unsupported file type" := by
  intro h
  have hlast := congrArg (fun s => s.toList.getLast?) h
  simp only [errorText, String.toList_append] at hlast
  rw [show ")".toList = [')'] from rfl, List.getLast?_concat] at hlast
  exact absurd hlast (by decide)

theorem error_ne_unsupported (stop : Stop) (logical : PathUnits) :
    (format strerror).error d stop ≠ unsupported logical := by
  intro h
  cases stop with
  | aborted => exact nomatch congrArg FsError.code h
  | directory errno => exact errorText_ne strerror errno (congrArg FsError.message h)
  | entry name errno => exact errorText_ne strerror errno (congrArg FsError.message h)

/-- The listing goes on behind what it has. -/
def behind (infos : List (FileInfo PathUnits Nat)) :
    Except (FsError PathUnits) (List (FileInfo PathUnits Nat)) →
      Except (FsError PathUnits) (List (FileInfo PathUnits Nat)) :=
  Except.map (infos ++ ·)

/-- The loop lists what is expected, or reaches an entry of another kind. -/
theorem listLoop_cases (hd : IsNormal false d) (signal : Signal) (entries : List Entry) (checkpoint : Nat)
    (infos : List (FileInfo PathUnits Nat)) :
    (OthersUnreached signal checkpoint entries ∧ listLoop strerror d signal checkpoint entries infos =
        behind infos ((format strerror).result d (expectedFrom signal checkpoint entries))) ∨
      ¬OthersUnreached signal checkpoint entries ∧
        ∃ path, listLoop strerror d signal checkpoint entries infos = .error (unsupported path) := by
  induction entries generalizing checkpoint infos with
  | nil => exact .inl ⟨by simp [OthersUnreached], by simp [listLoop, expectedFrom, Format.result, behind, Except.map]⟩
  | cons entry entries ih =>
    rw [listLoop, expectedFrom, aborted]
    by_cases haborted : abortedAt signal checkpoint = true
    · rw [if_pos haborted, if_pos haborted]
      exact .inl ⟨fun i _ _ _ _ _ => .inl ⟨0, Nat.zero_le i, haborted⟩, rfl⟩
    · rw [if_neg haborted, if_neg haborted]
      cases hstat : entry.lstat with
      | error errno =>
        refine .inl ⟨othersUnreached_of_failed hstat entries, ?_⟩
        simp only [infoFor, mapFsError_eq]
        rfl
      | ok st =>
        simp only [infoFor_ok]
        cases hkind : kindOf st.type with
        | none => exact .inr ⟨not_othersUnreached haborted hstat hkind entries, _, rfl⟩
        | some kind =>
          have hinfo :
              { name := basename (join [d, entry.name] false)
                path := join [d, entry.name] false
                kind
                size := st.size
                mtimeMs := wholeMillis st.mtime } =
              (format strerror).info d { name := entry.name, kind, stat := st } := by
            rw [show join [d, entry.name] false = entryPath d entry.name from rfl, (basename_entryPath hd entry).1]
            rfl
          simp only [hinfo]
          rw [othersUnreached_cons haborted hstat hkind]
          refine (ih (checkpoint + 1) (infos ++ [_])).imp_left fun h => ⟨h.1, h.2.trans ?_⟩
          cases expectedFrom signal (checkpoint + 1) entries with
          | ok listed => simp [Except.map, Format.result, behind]
          | error stop => rfl

/-- Where a listing of a directory reaches no entry of another kind. -/
def Reaches (signal : Signal) (content : Except Errno (List Entry)) : Prop :=
  abortedAt signal 0 = true ∨ ∀ entries, content = .ok entries → OthersUnreached signal 1 entries

/-- A listing is what it is to be, or fails at an entry of another kind. -/
theorem listDir_cases (hd : IsNormal false d) (signal : Signal) (content : Except Errno (List Entry)) :
    (Reaches signal content ∧
        listDir strerror d signal content = (format strerror).result d (expected signal content)) ∨
      ¬Reaches signal content ∧ ∃ path, listDir strerror d signal content = .error (unsupported path) := by
  rw [listDir.eq_def, aborted, expected.eq_def]
  by_cases haborted : abortedAt signal 0 = true
  · rw [if_pos haborted, if_pos haborted]
    exact .inl ⟨.inl haborted, rfl⟩
  · rw [if_neg haborted, if_neg haborted]
    cases content with
    | error errno =>
      refine .inl ⟨.inr fun entries h => (nomatch h), ?_⟩
      simp only [mapFsError_eq]
      rfl
    | ok entries =>
      rcases listLoop_cases strerror hd signal entries 1 [] with ⟨hall, hloop⟩ | ⟨hreached, herror⟩
      · refine .inl ⟨.inr fun entries' h => Except.ok.inj h ▸ hall, hloop.trans ?_⟩
        show _ = (format strerror).result d (expectedFrom signal 1 entries)
        cases expectedFrom signal 1 entries <;> rfl
      · exact .inr ⟨fun h => h.elim haborted fun h => hreached (h entries rfl), herror⟩

/-- The milliseconds are exact from 1970 on, as far as 64 bits go. -/
theorem wholeMillis_eq_iff (mtime : Int) :
    (wholeMillis mtime : Int) = mtime / 1000000 ↔ 0 ≤ mtime ∧ mtime / 1000000 < 2 ^ 64 := by
  rw [wholeMillis]
  split_ifs <;> omega

end Rust

/-- Both bindings list a directory as is expected, each in its own strings and messages, and
with the same whole milliseconds. -/
structure Agree (texts : Python.Texts time) (strerror : Errno → String) (directory : PathUnits) (signal : Signal)
    (content : Except Errno (List Entry)) : Prop where
  python :
    (Python.listDir texts (decode16 directory) signal content).map (wholeTimes texts.whole) =
      .ok ((Python.format texts).exact.result directory (expected signal content))
  rust :
    wholeTimes Int.ofNat (Rust.listDir strerror directory signal content) =
      (Rust.format strerror).exact.result directory (expected signal content)

/-- A time is not before 1970, its milliseconds fit in 64 bits, and its floating-point
number has them. -/
structure InRange (texts : Python.Texts time) (mtime : Int) : Prop where
  since1970 : 0 ≤ mtime
  fits : mtime / 1000000 < 2 ^ 64
  kept : texts.whole (texts.millis mtime) = mtime / 1000000

/-- The file `f`, and the pipe `p`. -/
def file : Entry := ⟨[102], .ok ⟨.regular, 3, 0⟩, by decide, List.forall_mem_singleton.mpr rfl⟩

def pipe : Entry := ⟨[112], .ok ⟨.fifo, 0, 0⟩, by decide, List.forall_mem_singleton.mpr rfl⟩

/-- Exact milliseconds, by their nanoseconds, and no text. -/
def plainTexts : Python.Texts Int := ⟨id, (· / 1000000), fun _ _ => ""⟩

end MinionAgent.Listing
