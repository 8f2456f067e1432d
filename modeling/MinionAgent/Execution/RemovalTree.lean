import MinionAgent.Execution.RustRimraf

/-!
# MinionAgent.Execution.RemovalTree

What a recursive removal does to the tree it is given.

* `Disk.Leads`, `Disk.Clear` — a path names an entry of the tree, and nothing
  above or below the entry is gone;
* `Disk.LinksHold` — no link of the tree is taken for a directory;
* `Disk.Excused` — why an entry of the tree may be left behind;
* `rimrafEntry_leaf`, `rmdirFirst_directory` — one entry, by what it is;
* `Removes.outcome` — a removal accounts for its whole tree.
-/

namespace MinionAgent

open Rimraf

namespace Disk

variable (d : Disk)

/-! ## The tree -/

/-- A path names an entry of the tree whatever else of the tree is gone, as
long as nothing above the entry is. -/
def Leads (root p q : FsPath) (budget : Nat) : Prop :=
  root <:+ q ∧ ∀ gone : Gone, (∀ x ∈ gone, root <:+ x ∧ ¬ x <:+ q) → d.locate gone p = .ok (q, budget)

/-- Only entries of the tree are gone, and none above or below an entry. -/
def Clear (root q : FsPath) (gone : Gone) : Prop := ∀ x ∈ gone, root <:+ x ∧ ¬ x <:+ q ∧ ¬ q <:+ x

/-- The failures of a link's `unlink` (on Windows also of its `lstat`) that
make removal treat it as a directory. -/
def Refuses (q : FsPath) : Prop :=
  d.fault .unlink q = some .isDirectory ∨ d.fault .unlink q = some .notPermitted ∨
    d.platform = .windows ∧ d.fault .lstat q = some .notPermitted

/-- No link of the tree both refuses to be unlinked and answers `rmdir` as a
directory with children would. -/
def LinksHold (root : FsPath) : Prop :=
  ∀ q target e, root <:+ q → d.kind q = some (.link target) → d.Refuses q → d.fault .rmdir q = some e →
    e.rmdirDescends = false

/-! ## What is left behind -/

/-- A call on the entry fails. -/
def HasFault (q : FsPath) : Prop := ∃ call, d.fault call q ≠ none

/-- A directory whose children removal may not come to. -/
def Blocks (q : FsPath) : Prop :=
  d.kind q = some .directory ∧
    (d.fault .lstat q ≠ none ∨ d.fault .readdir q ≠ none ∨ ∃ e, d.fault .rmdir q = some e ∧ e.rmdirDescends = false)

/-- An entry may be left behind: a call on it fails, something below it is left
behind, or a directory above it blocks. -/
def Excused (root : FsPath) (gone : Gone) (x : FsPath) : Prop :=
  d.HasFault x ∨ (∃ y, x <:+ y ∧ y ≠ x ∧ (d.kind y).isSome ∧ y ∉ gone) ∨
    ∃ y, root <:+ y ∧ y <:+ x ∧ y ≠ x ∧ d.Blocks y

/-- A link that Windows refuses to unlink: its removal may end without it. -/
def Vanishing (q : FsPath) : Prop :=
  d.platform = .windows ∧ (∃ target, d.kind q = some (.link target)) ∧
    (d.fault .lstat q = some .notPermitted ∨ d.fault .unlink q = some .notPermitted)

/-- What the removal of an entry and all below it comes to. -/
structure Outcome (root q : FsPath) (gone : Gone) (first : Option FsFailure) (gone' : Gone) : Prop where
  grows : ∀ x ∈ gone, x ∈ gone'
  contained : ∀ x ∈ gone', x ∈ gone ∨ q <:+ x
  accounted : ∀ x, q <:+ x → (d.kind x).isSome → x ∉ gone' → d.Excused root gone' x
  complete : q ∈ gone' → ∀ x, q <:+ x → (d.kind x).isSome → x ∈ gone'
  removed : first = none → q ∈ gone' ∨ d.Vanishing q
  succeeds : q ∈ gone' → first = none

variable {d} {root p q : FsPath} {budget : Nat} {gone gone' : Gone}

theorem Refuses.hasFault (h : d.Refuses q) : d.HasFault q := by
  rcases h with h | h | ⟨-, h⟩
  · exact ⟨.unlink, by simp [h]⟩
  · exact ⟨.unlink, by simp [h]⟩
  · exact ⟨.lstat, by simp [h]⟩

theorem Leads.locate (h : d.Leads root p q budget) (hclear : Clear root q gone) :
    d.locate gone p = .ok (q, budget) :=
  h.2 gone fun x hx => ⟨(hclear x hx).1, (hclear x hx).2.1⟩

theorem Clear.not_mem (h : Clear root q gone) : q ∉ gone := fun hq => (h q hq).2.1 List.suffix_rfl

theorem Clear.present (h : Clear root q gone) {kind : EntryKind} (hkind : d.kind q = some kind) :
    d.present gone q = some kind :=
  present_eq_some.mpr ⟨h.not_mem, hkind⟩

/-- Nothing of a clear directory is gone. -/
theorem Clear.children (h : Clear root q gone) : d.children gone q = d.names q := by
  refine List.filter_eq_self.mpr fun name _ => ?_
  have hchild : name :: q ∉ gone := fun hmem => (h _ hmem).2.2 (List.suffix_cons name q)
  simpa using hchild

theorem Leads.child (h : d.Leads root p q budget) (hq : d.kind q = some .directory) (name : String) :
    d.Leads root (name :: p) (name :: q) budget := by
  refine ⟨h.1.trans (List.suffix_cons name q), fun gone hgone => ?_⟩
  have hbelow : ∀ x ∈ gone, root <:+ x ∧ ¬ x <:+ q :=
    fun x hx => ⟨(hgone x hx).1, fun hsuffix => (hgone x hx).2 (hsuffix.trans (List.suffix_cons name q))⟩
  have hpresent : d.present gone q = some .directory :=
    present_eq_some.mpr ⟨fun hmem => (hbelow q hmem).2 List.suffix_rfl, hq⟩
  exact locate_child (h.2 gone hbelow) hpresent name

theorem Clear.child (h : Clear root q gone) (name : String) : Clear root (name :: q) gone := by
  intro x hx
  obtain ⟨hroot, habove, hbelow⟩ := h x hx
  refine ⟨hroot, fun hsuffix => ?_, fun hsuffix => hbelow ((List.suffix_cons name q).trans hsuffix)⟩
  rcases List.suffix_cons_iff.mp hsuffix with rfl | hsuffix
  · exact hbelow (List.suffix_cons name q)
  · exact habove hsuffix

/-- What is below an entry is below a name of it. -/
theorem below_cases {x : FsPath} (hx : (d.kind x).isSome) (h : q <:+ x) :
    x = q ∨ d.kind q = some .directory ∧ ∃ name ∈ d.names q, name :: q <:+ x := by
  induction x with
  | nil => exact .inl (List.suffix_nil.mp h).symm
  | cons name x ih =>
    obtain ⟨hdirectory, hname⟩ := (d.kind_cons name x).mp hx
    rcases List.suffix_cons_iff.mp h with rfl | h
    · exact .inl rfl
    · rcases ih (by simp [hdirectory]) h with rfl | ⟨hq, child, hchild, hsuffix⟩
      · exact .inr ⟨hdirectory, name, hname, List.suffix_rfl⟩
      · exact .inr ⟨hq, child, hchild, hsuffix.trans (List.suffix_cons name x)⟩

theorem eq_of_leaf {kind : EntryKind} (hq : d.kind q = some kind) (hleaf : kind ≠ .directory) {x : FsPath} (h : q <:+ x)
    (hx : (d.kind x).isSome) : x = q := by
  rcases below_cases hx h with rfl | ⟨hdirectory, -⟩
  · rfl
  · rw [hq] at hdirectory
    exact absurd (Option.some.inj hdirectory) hleaf

/-! ## Calls on an entry of the tree -/

theorem lstat_of_locate {kind : EntryKind} (hp : d.locate gone p = .ok (q, budget))
    (hq : d.present gone q = some kind) :
    d.lstat gone p = match d.fault .lstat q with | some e => .error e | none => .ok kind := by
  rw [lstat, entry_of_locate hp hq]
  cases d.fault .lstat q <;> rfl

theorem chmod_of_locate {kind : EntryKind} (hp : d.locate gone p = .ok (q, budget))
    (hq : d.present gone q = some kind) :
    d.chmod gone p = match d.fault .chmod q with | some e => .error e | none => .ok () := by
  rw [chmod, entry_of_locate hp hq]
  cases d.fault .chmod q <;> rfl

theorem unlink_leaf {kind : EntryKind} (hp : d.locate gone p = .ok (q, budget)) (hq : d.present gone q = some kind)
    (hleaf : kind ≠ .directory) :
    d.unlink gone p = match d.fault .unlink q with | some e => .error e | none => .ok (q :: gone) := by
  rw [unlink, entry_of_locate hp hq]
  cases d.fault .unlink q with
  | some e => rfl
  | none => cases kind <;> first | rfl | exact absurd rfl hleaf

theorem unlink_directory (hp : d.locate gone p = .ok (q, budget)) (hq : d.present gone q = some .directory) :
    d.unlink gone p = .error ((d.fault .unlink q).getD (d.unlinkRefusal q)) := by
  rw [unlink, entry_of_locate hp hq]
  cases d.fault .unlink q <;> rfl

theorem rmdir_directory (hp : d.locate gone p = .ok (q, budget)) (hq : d.present gone q = some .directory) :
    d.rmdir gone p = match d.fault .rmdir q with
      | some e => .error e
      | none => if d.children gone q = [] then .ok (q :: gone) else .error .notEmpty := by
  rw [rmdir, entry_of_locate hp hq]
  cases d.fault .rmdir q <;> rfl

theorem readdir_directory (hp : d.locate gone p = .ok (q, budget)) (hq : d.present gone q = some .directory) :
    d.readdir gone p = match d.fault .readdir q with
      | some e => .error e
      | none => .ok ((d.children gone q).map (· :: p)) := by
  rw [readdir, resolve_of_locate hp hq (by simp)]
  simp only [hq]
  cases d.fault .readdir q <;> rfl

theorem rmdir_file (hp : d.locate gone p = .ok (q, budget)) (hq : d.present gone q = some .file) :
    d.rmdir gone p = .error ((d.fault .rmdir q).getD d.rmdirRefusal) := by
  rw [rmdir, entry_of_locate hp hq]
  cases d.fault .rmdir q <;> rfl

theorem rmdir_link {target : FsPath} (hp : d.locate gone p = .ok (q, budget))
    (hq : d.present gone q = some (.link target)) :
    d.rmdir gone p = match d.fault .rmdir q with
      | some e => .error e
      | none =>
        if d.platform = .windows ∧ d.directoryLink q then .ok (q :: gone) else .error d.rmdirRefusal := by
  rw [rmdir, entry_of_locate hp hq]
  cases d.fault .rmdir q <;> rfl

theorem readdir_file (hp : d.locate gone p = .ok (q, budget)) (hq : d.present gone q = some .file) :
    d.readdir gone p = .error .notDirectory := by
  rw [readdir, resolve_of_locate hp hq (by simp)]
  simp only [hq]

theorem stat_of_locate {kind : EntryKind} (hp : d.locate gone p = .ok (q, budget)) (hq : d.present gone q = some kind)
    (hkind : ∀ target, kind ≠ .link target) : d.stat gone p = .ok kind := by
  rw [stat, resolve_of_locate hp hq hkind]
  simp only [hq]

theorem ne_notFound {call : FsCall} {e : OsError} (h : d.fault call q = some e) : e ≠ .notFound := by
  rintro rfl
  exact d.fault_ne_notFound call q h

end Disk

/-! ## Files and links -/

namespace Rimraf

variable {d : Disk} {root p q : FsPath} {budget : Nat} {gone gone' : Gone}

/-- What is left to do with a file or a link after its own calls: nothing, a
failure, or a link (on POSIX also a file) to remove as a directory. -/
inductive LeafEntry (d : Disk) (gone : Gone) (p q : FsPath) :
    Except FsFailure (Option Descend × Gone) → Prop
  | removed : LeafEntry d gone p q (.ok (none, q :: gone))
  | failed {failure : FsFailure} (hfault : d.HasFault q) : LeafEntry d gone p q (.error failure)
  | vanished (hlink : d.Vanishing q) : LeafEntry d gone p q (.ok (none, gone))
  | routed {e : OsError} (hrefuses : d.Refuses q) (hlink : d.platform = .windows → d.Vanishing q) :
      LeafEntry d gone p q (.ok (some (p, some e), gone))

theorem fixWinEperm_leaf {kind : EntryKind} {e : OsError} (hp : d.locate gone p = .ok (q, budget))
    (hclear : Disk.Clear root q gone) (hkind : d.kind q = some kind) (hleaf : kind ≠ .directory)
    (hwindows : d.platform = .windows)
    (heperm : d.fault .lstat q = some .notPermitted ∨ d.fault .unlink q = some .notPermitted) :
    LeafEntry d gone p q (fixWinEperm d gone p e) := by
  have hq := hclear.present hkind
  have hrefuses : d.Refuses q := by
    rcases heperm with h | h
    · exact .inr (.inr ⟨hwindows, h⟩)
    · exact .inr (.inl h)
  have hfault := hrefuses.hasFault
  have hvanishing : ∀ target, kind = .link target → d.Vanishing q :=
    fun target hlink => ⟨hwindows, ⟨target, hlink ▸ hkind⟩, heperm⟩
  simp only [fixWinEperm, Disk.chmod_of_locate hp hq]
  cases hchmod : d.fault .chmod q with
  | some e =>
    have hne := Disk.ne_notFound hchmod
    simp only [Except.bind, OsError.vanished, beq_iff_eq, if_neg hne]
    exact .failed hfault
  | none =>
    simp only [Except.bind]
    -- The second `unlink`, where `stat` has found no directory.
    have hretry := Disk.unlink_leaf hp hq hleaf
    cases kind with
    | directory => exact absurd rfl hleaf
    | file =>
      rw [Disk.stat_of_locate hp hq (by simp)]
      cases hunlink : d.fault .unlink q with
      | none =>
        simp only [hretry, hunlink]
        exact .removed
      | some e =>
        simp only [hretry, hunlink, OsError.vanished, beq_iff_eq, if_neg (Disk.ne_notFound hunlink)]
        exact .failed hfault
    | link target =>
      cases d.stat gone p with
      | error e =>
        simp only []
        split
        · exact .vanished (hvanishing target rfl)
        · exact .failed hfault
      | ok found =>
        cases found with
        | directory => exact .routed hrefuses fun _ => hvanishing target rfl
        | file | link =>
          cases hunlink : d.fault .unlink q with
          | none =>
            simp only [hretry, hunlink]
            exact .removed
          | some e =>
            simp only [hretry, hunlink, OsError.vanished, beq_iff_eq, if_neg (Disk.ne_notFound hunlink)]
            exact .failed hfault

theorem unlinkRouted_leaf {kind : EntryKind} (hp : d.locate gone p = .ok (q, budget)) (hclear : Disk.Clear root q gone)
    (hkind : d.kind q = some kind) (hleaf : kind ≠ .directory) :
    LeafEntry d gone p q (unlinkRouted d gone p) := by
  simp only [unlinkRouted, Disk.unlink_leaf hp (hclear.present hkind) hleaf]
  cases hunlink : d.fault .unlink q with
  | none => exact .removed
  | some e =>
    have hne := Disk.ne_notFound hunlink
    simp only [OsError.vanished, beq_iff_eq, if_neg hne, Disk.isWinEperm, Bool.and_eq_true]
    split
    · rename_i heperm
      obtain ⟨hwindows, rfl⟩ := heperm
      exact fixWinEperm_leaf hp hclear hkind hleaf hwindows (.inr hunlink)
    · split
      · rename_i hroute
        refine .routed ?_ fun hwindows => absurd hwindows hroute.1
        rcases hroute.2 with rfl | rfl
        · exact .inl hunlink
        · exact .inr (.inl hunlink)
      · exact .failed ⟨.unlink, by simp [hunlink]⟩

/-- A file or a link, by its own calls. -/
theorem rimrafEntry_leaf {kind : EntryKind} (hp : d.locate gone p = .ok (q, budget)) (hclear : Disk.Clear root q gone)
    (hkind : d.kind q = some kind) (hleaf : kind ≠ .directory) :
    LeafEntry d gone p q (rimrafEntry d gone p) := by
  simp only [rimrafEntry, Disk.lstat_of_locate hp (hclear.present hkind)]
  cases hlstat : d.fault .lstat q with
  | none => cases kind <;> first | exact unlinkRouted_leaf hp hclear hkind hleaf | exact absurd rfl hleaf
  | some e =>
    have hne := Disk.ne_notFound hlstat
    simp only [OsError.vanished, beq_iff_eq, if_neg hne, Disk.isWinEperm, Bool.and_eq_true]
    split
    · rename_i heperm
      obtain ⟨hwindows, rfl⟩ := heperm
      exact fixWinEperm_leaf hp hclear hkind hleaf hwindows (.inl hlstat)
    · exact unlinkRouted_leaf hp hclear hkind hleaf

/-- A file or a link that is removed as a directory: its `rmdir` fails, removes
a Windows link or finds no directory there. -/
theorem rmdirFirst_leaf {kind : EntryKind} {original : OsError} (hp : d.locate gone p = .ok (q, budget))
    (hclear : Disk.Clear root q gone) (hkind : d.kind q = some kind) (hleaf : kind ≠ .directory)
    (hwindows : d.platform = .windows → d.Vanishing q)
    (hholds : ∀ target e, kind = .link target → d.fault .rmdir q = some e → e.rmdirDescends = false) :
    rmdirFirst d gone p (some original) = .ok (none, q :: gone) ∨
      d.Vanishing q ∧ rmdirFirst d gone p (some original) = .ok (none, gone) ∨
        ∃ failure, rmdirFirst d gone p (some original) = .error failure := by
  have hq := hclear.present hkind
  cases kind with
  | directory => exact absurd rfl hleaf
  | file =>
    have hposix : d.platform = .posix := by
      cases hplatform : d.platform with
      | posix => rfl
      | windows =>
        obtain ⟨-, ⟨target, hlink⟩, -⟩ := hwindows hplatform
        simp [hkind] at hlink
    simp only [rmdirFirst, Disk.rmdir_file hp hq, Disk.readdir_file hp hq, Disk.rmdirRefusal, hposix]
    cases hrmdir : d.fault .rmdir q with
    | none => simp [OsError.vanished]
    | some e =>
      have hne := Disk.ne_notFound hrmdir
      cases e <;> simp_all [OsError.vanished, OsError.rmdirDescends]
  | link target =>
    simp only [rmdirFirst, Disk.rmdir_link hp hq]
    cases hrmdir : d.fault .rmdir q with
    | some e =>
      have hne := Disk.ne_notFound hrmdir
      have hdescends := hholds target e rfl hrmdir
      simp only [OsError.vanished, beq_iff_eq, if_neg hne, hdescends, Bool.false_eq_true, if_false]
      right; right
      split
      · exact ⟨_, rfl⟩
      · exact ⟨_, rfl⟩
    | none =>
      cases hplatform : d.platform with
      | posix => simp [Disk.rmdirRefusal, hplatform, OsError.vanished]
      | windows =>
        have hvanishing := hwindows hplatform
        by_cases hdirectoryLink : d.directoryLink q = true
        · simp [hdirectoryLink]
        · simp [Disk.rmdirRefusal, hplatform, OsError.vanished, hdirectoryLink, hvanishing]

/-! ## Directories -/

/-- A directory is a directory to remove, unless its `lstat` fails. -/
theorem rimrafEntry_directory (hp : d.locate gone p = .ok (q, budget)) (hclear : Disk.Clear root q gone)
    (hkind : d.kind q = some .directory) :
    (∃ original, rimrafEntry d gone p = .ok (some (p, original), gone)) ∨
      d.fault .lstat q ≠ none ∧ ∃ failure, rimrafEntry d gone p = .error failure := by
  have hq := hclear.present hkind
  have hfix : ∀ e, (∃ original, fixWinEperm d gone p e = .ok (some (p, original), gone)) ∨
      ∃ failure, fixWinEperm d gone p e = .error failure := by
    intro e
    simp only [fixWinEperm, Disk.chmod_of_locate hp hq, Disk.stat_of_locate hp hq (by simp)]
    cases hchmod : d.fault .chmod q with
    | none => exact .inl ⟨some e, rfl⟩
    | some e' =>
      have hne := Disk.ne_notFound hchmod
      simp only [Except.bind, OsError.vanished, beq_iff_eq, if_neg hne]
      exact .inr ⟨_, rfl⟩
  simp only [rimrafEntry, Disk.lstat_of_locate hp hq]
  cases hlstat : d.fault .lstat q with
  | none => exact .inl ⟨none, rfl⟩
  | some e =>
    have hne := Disk.ne_notFound hlstat
    simp only [OsError.vanished, beq_iff_eq, if_neg hne]
    have hunlink : (∃ original, unlinkRouted d gone p = .ok (some (p, original), gone)) ∨
        ∃ failure, unlinkRouted d gone p = .error failure := by
      have hrefused : (d.fault .unlink q).getD (d.unlinkRefusal q) ≠ .notFound := by
        cases hunlink : d.fault .unlink q with
        | some e => exact Disk.ne_notFound hunlink
        | none =>
          simp only [Option.getD_none, Disk.unlinkRefusal]
          split <;> simp
      simp only [unlinkRouted, Disk.unlink_directory hp hq, OsError.vanished, beq_iff_eq, if_neg hrefused]
      split
      · exact hfix _
      · split
        · exact .inl ⟨_, rfl⟩
        · exact .inr ⟨_, rfl⟩
    have hboth : (∃ original, (if d.isWinEperm e = true then fixWinEperm d gone p e else unlinkRouted d gone p) =
          .ok (some (p, original), gone)) ∨
        ∃ failure, (if d.isWinEperm e = true then fixWinEperm d gone p e else unlinkRouted d gone p) =
          .error failure := by
      split
      · exact hfix e
      · exact hunlink
    exact hboth.imp id fun hfailed => ⟨by simp, hfailed⟩

/-- The first `rmdir` of a directory: it removes an empty one, and all its
children are removed first unless it blocks. -/
theorem rmdirFirst_directory {original : Option OsError} (hp : d.locate gone p = .ok (q, budget))
    (hclear : Disk.Clear root q gone) (hkind : d.kind q = some .directory) :
    d.names q = [] ∧ rmdirFirst d gone p original = .ok (none, q :: gone) ∨
      rmdirFirst d gone p original = .ok (some ((d.names q).map (· :: p)), gone) ∨
        (∃ failure, rmdirFirst d gone p original = .error failure) ∧ d.Blocks q ∧ d.HasFault q := by
  have hq := hclear.present hkind
  have hlist : ∀ e : OsError, d.rmdir gone p = .error e → e.rmdirDescends = true →
      rmdirFirst d gone p original = .ok (some ((d.names q).map (· :: p)), gone) ∨
        (∃ failure, rmdirFirst d gone p original = .error failure) ∧ d.Blocks q ∧ d.HasFault q := by
    intro e hrmdir hdescends
    have hne : e ≠ .notFound := by
      rintro rfl
      cases hdescends
    have hnotDirectory : e ≠ .notDirectory := by
      rintro rfl
      cases hdescends
    simp only [rmdirFirst, hrmdir, Disk.readdir_directory hp hq, hclear.children, OsError.vanished, beq_iff_eq,
      if_neg hne, hnotDirectory, and_false, if_false, hdescends, if_true]
    cases hreaddir : d.fault .readdir q with
    | none => exact .inl rfl
    | some e =>
      have hne := Disk.ne_notFound hreaddir
      simp only [if_neg hne]
      exact .inr ⟨⟨_, rfl⟩, ⟨hkind, .inr (.inl (by simp [hreaddir]))⟩, ⟨.readdir, by simp [hreaddir]⟩⟩
  have hanswer := Disk.rmdir_directory hp hq
  rw [hclear.children] at hanswer
  cases hrmdir : d.fault .rmdir q with
  | none =>
    simp only [hrmdir] at hanswer
    by_cases hempty : d.names q = []
    · rw [if_pos hempty] at hanswer
      exact .inl ⟨hempty, by simp [rmdirFirst, hanswer]⟩
    · rw [if_neg hempty] at hanswer
      exact .inr (hlist .notEmpty hanswer rfl)
  | some e =>
    simp only [hrmdir] at hanswer
    have hne := Disk.ne_notFound hrmdir
    have hnotDirectory : e ≠ .notDirectory := by
      rintro rfl
      exact d.rmdir_ne_notDirectory q hkind hrmdir
    cases hdescends : e.rmdirDescends with
    | true => exact .inr (hlist e hanswer hdescends)
    | false =>
      refine .inr (.inr ⟨⟨⟨p, e⟩, ?_⟩, ⟨hkind, .inr (.inr ⟨e, hrmdir, hdescends⟩)⟩, ⟨.rmdir, by simp [hrmdir]⟩⟩)
      simp [rmdirFirst, hanswer, OsError.vanished, hne, hnotDirectory, hdescends]

/-- The last `rmdir` of a directory removes it when nothing is left in it. -/
theorem rmdirLast_directory (hp : d.locate gone p = .ok (q, budget)) (hq : d.present gone q = some .directory) :
    d.children gone q = [] ∧ rmdirLast d gone p = .ok (q :: gone) ∨
      (∃ failure, rmdirLast d gone p = .error failure) ∧ (d.HasFault q ∨ d.children gone q ≠ []) := by
  simp only [rmdirLast, Disk.rmdir_directory hp hq]
  cases hrmdir : d.fault .rmdir q with
  | none =>
    by_cases hempty : d.children gone q = []
    · simp [hempty]
    · simp [hempty, OsError.vanished]
  | some e =>
    have hne := Disk.ne_notFound hrmdir
    simp only [OsError.vanished, beq_iff_eq, if_neg hne]
    exact .inr ⟨⟨_, rfl⟩, .inl ⟨.rmdir, by simp [hrmdir]⟩⟩

end Rimraf

/-! ## Outcomes -/

namespace Disk

variable {d : Disk} {root p q : FsPath} {budget : Nat} {gone gone' gone'' : Gone} {first second last : Option FsFailure}

/-- An entry that is left with all below it. -/
theorem Outcome.left (h : ∀ x, q <:+ x → (d.kind x).isSome → d.Excused root gone x) (hq : q ∉ gone)
    (hfirst : first = none → d.Vanishing q) : d.Outcome root q gone first gone where
  grows _ hx := hx
  contained _ hx := .inl hx
  accounted x hsuffix hx _ := h x hsuffix hx
  complete hmem := absurd hmem hq
  removed hnone := .inr (hfirst hnone)
  succeeds hmem := absurd hmem hq

/-- A directory that blocks, and a failing call on it. -/
theorem Outcome.blocked (hroot : root <:+ q) (hq : q ∉ gone) (hblocks : d.Blocks q) (hfault : d.HasFault q)
    (failure : FsFailure) : d.Outcome root q gone (some failure) gone := by
  refine .left (fun x hsuffix _ => ?_) hq (by simp)
  by_cases hx : x = q
  · subst hx
    exact .inl hfault
  · exact .inr (.inr ⟨q, hroot, hsuffix, Ne.symm hx, hblocks⟩)

/-- An entry that is removed, with nothing below it. -/
theorem Outcome.single (h : ∀ x, q <:+ x → (d.kind x).isSome → x = q) : d.Outcome root q gone none (q :: gone) where
  grows _ hx := List.mem_cons_of_mem q hx
  contained x hx := by
    rcases List.mem_cons.mp hx with rfl | hx
    · exact .inr List.suffix_rfl
    · exact .inl hx
  accounted x hsuffix hx hleft := by
    obtain rfl := h x hsuffix hx
    exact absurd List.mem_cons_self hleft
  complete _ x hsuffix hx := by
    obtain rfl := h x hsuffix hx
    exact List.mem_cons_self
  removed _ := .inl List.mem_cons_self
  succeeds _ := rfl

/-! ## Children -/

theorem not_suffix_sibling {name other : String} {x : FsPath} (hne : name ≠ other) (h : name :: q <:+ x) :
    ¬ other :: q <:+ x := by
  intro h'
  have hsuffix : name :: q <:+ other :: q := List.suffix_of_suffix_length_le h h' (by simp)
  have heq := hsuffix.eq_of_length (by simp)
  exact hne (List.cons.inj heq).1

theorem not_suffix_of_child {name : String} {x : FsPath} (h : name :: q <:+ x) : ¬ x <:+ q := by
  intro h'
  have hle := (h.trans h').length_le
  rw [List.length_cons] at hle
  omega

/-- Another child is as clear as it was. -/
theorem Outcome.clear {name other : String} (h : d.Outcome root (name :: q) gone first gone') (hroot : root <:+ q)
    (hne : name ≠ other) (hclear : Clear root (other :: q) gone) : Clear root (other :: q) gone' := by
  intro x hx
  rcases h.contained x hx with hx | hsuffix
  · exact hclear x hx
  · refine ⟨(hroot.trans (List.suffix_cons name q)).trans hsuffix, fun habove => ?_, not_suffix_sibling hne hsuffix⟩
    exact not_suffix_sibling hne (hsuffix.trans habove) List.suffix_rfl

/-- What the removal of some children of a directory comes to. -/
structure ChildrenOutcome (d : Disk) (root q : FsPath) (names : List String) (gone : Gone) (first : Option FsFailure)
    (gone' : Gone) : Prop where
  grows : ∀ x ∈ gone, x ∈ gone'
  contained : ∀ x ∈ gone', x ∈ gone ∨ ∃ name ∈ names, name :: q <:+ x
  accounted : ∀ name ∈ names, ∀ x, name :: q <:+ x → (d.kind x).isSome → x ∉ gone' → d.Excused root gone' x
  complete : ∀ name ∈ names, name :: q ∈ gone' → ∀ x, name :: q <:+ x → (d.kind x).isSome → x ∈ gone'
  succeeds : (∀ name ∈ names, name :: q ∈ gone') → first = none

theorem ChildrenOutcome.nil : d.ChildrenOutcome root q [] gone none gone where
  grows _ hx := hx
  contained _ hx := .inl hx
  accounted _ hname := absurd hname List.not_mem_nil
  complete _ hname := absurd hname List.not_mem_nil
  succeeds _ := rfl

theorem ChildrenOutcome.cons {name : String} {names : List String} (hname : name ∉ names)
    (h : d.Outcome root (name :: q) gone first gone') (hrest : d.ChildrenOutcome root q names gone' second gone'') :
    d.ChildrenOutcome root q (name :: names) gone (first <|> second) gone'' := by
  -- The rest of the children leave what is below the first one alone.
  have hkept : ∀ x, name :: q <:+ x → x ∈ gone'' → x ∈ gone' := by
    intro x hsuffix hx
    rcases hrest.contained x hx with hx | ⟨other, hother, hbelow⟩
    · exact hx
    · have hne : name ≠ other := by
        rintro rfl
        exact hname hother
      exact absurd hbelow (not_suffix_sibling hne hsuffix)
  refine ⟨fun x hx => hrest.grows x (h.grows x hx), fun x hx => ?_, ?_, ?_, fun hall => ?_⟩
  · rcases hrest.contained x hx with hx | ⟨other, hother, hbelow⟩
    · exact (h.contained x hx).imp_right fun hsuffix => ⟨name, List.mem_cons_self, hsuffix⟩
    · exact .inr ⟨other, List.mem_cons_of_mem name hother, hbelow⟩
  · intro child hchild x hsuffix hx hleft
    rcases List.mem_cons.mp hchild with rfl | hchild
    · rcases h.accounted x hsuffix hx (fun hmem => hleft (hrest.grows x hmem)) with hfault |
        ⟨y, hy, hne, hkind, hleft'⟩ | habove
      · exact .inl hfault
      · exact .inr (.inl ⟨y, hy, hne, hkind, fun hmem => hleft' (hkept y (hsuffix.trans hy) hmem)⟩)
      · exact .inr (.inr habove)
    · exact hrest.accounted child hchild x hsuffix hx hleft
  · intro child hchild hmem x hsuffix hx
    rcases List.mem_cons.mp hchild with rfl | hchild
    · exact hrest.grows x (h.complete (hkept _ List.suffix_rfl hmem) x hsuffix hx)
    · exact hrest.complete child hchild hmem x hsuffix hx
  · have hfirst := h.succeeds (hkept _ List.suffix_rfl (hall name List.mem_cons_self))
    have hsecond := hrest.succeeds fun child hchild => hall child (List.mem_cons_of_mem name hchild)
    simp [hfirst, hsecond]

/-- A directory, its children handled, with its last `rmdir`. -/
theorem ChildrenOutcome.directory (h : d.ChildrenOutcome root q (d.names q) gone first gone')
    (hleads : d.Leads root p q budget) (hclear : Clear root q gone) (hkind : d.kind q = some .directory)
    (hlast : closeDirectory d gone' p first = (last, gone'')) : d.Outcome root q gone last gone'' := by
  have hbelow : ∀ x ∈ gone', root <:+ x ∧ ¬ x <:+ q := by
    intro x hx
    rcases h.contained x hx with hx | ⟨name, -, hsuffix⟩
    · exact ⟨(hclear x hx).1, (hclear x hx).2.1⟩
    · exact ⟨(hleads.1.trans (List.suffix_cons name q)).trans hsuffix, not_suffix_of_child hsuffix⟩
  have hp := hleads.2 gone' hbelow
  have hq : q ∉ gone' := fun hmem => (hbelow q hmem).2 List.suffix_rfl
  have hcontained : ∀ x ∈ gone', x ∈ gone ∨ q <:+ x := by
    intro x hx
    exact (h.contained x hx).imp_right fun ⟨name, _, hsuffix⟩ => (List.suffix_cons name q).trans hsuffix
  -- A directory that stays is excused by a call on it or by a child.
  have hstays : (d.HasFault q ∨ ∃ name ∈ d.names q, name :: q ∉ gone') →
      ∀ failure, d.Outcome root q gone (some failure) gone' := by
    intro hwhy failure
    refine ⟨h.grows, hcontained, fun x hsuffix hx hleft => ?_, fun hmem => absurd hmem hq, by simp,
      fun hmem => absurd hmem hq⟩
    rcases below_cases hx hsuffix with rfl | ⟨-, name, hname, hbelow⟩
    · rcases hwhy with hfault | ⟨name, hname, hchild⟩
      · exact .inl hfault
      · have hne : name :: x ≠ x := fun heq => by simpa using congrArg List.length heq
        exact .inr (.inl ⟨name :: x, List.suffix_cons name x, hne, isSome_kind_of_mem hkind hname, hchild⟩)
    · exact h.accounted name hname x hbelow hx hleft
  cases first with
  | some failure =>
    cases hlast
    refine hstays (.inr ?_) failure
    by_contra hnone
    have hall : ∀ name ∈ d.names q, name :: q ∈ gone' := by simpa using hnone
    cases h.succeeds hall
  | none =>
    simp only [closeDirectory] at hlast
    rcases rmdirLast_directory hp (present_eq_some.mpr ⟨hq, hkind⟩) with ⟨hempty, hok⟩ | ⟨⟨failure, herror⟩, hwhy⟩
    · rw [hok] at hlast
      cases hlast
      have hall : ∀ name ∈ d.names q, name :: q ∈ gone' := by
        intro name hname
        by_contra hleft
        have hmem : name ∈ d.children gone' q := mem_children.mpr ⟨hname, hleft⟩
        rw [hempty] at hmem
        exact absurd hmem List.not_mem_nil
      have hbelowGone : ∀ x, q <:+ x → (d.kind x).isSome → x ∈ q :: gone' := by
        intro x hsuffix hx
        rcases below_cases hx hsuffix with rfl | ⟨-, name, hname, hbelow⟩
        · exact List.mem_cons_self
        · exact List.mem_cons_of_mem q (h.complete name hname (hall name hname) x hbelow hx)
      refine ⟨fun x hx => List.mem_cons_of_mem q (h.grows x hx), fun x hx => ?_,
        fun x hsuffix hx hleft => absurd (hbelowGone x hsuffix hx) hleft, fun _ => hbelowGone,
        fun _ => .inl List.mem_cons_self, fun _ => rfl⟩
      rcases List.mem_cons.mp hx with rfl | hx
      · exact .inr List.suffix_rfl
      · exact hcontained x hx
    · rw [herror] at hlast
      cases hlast
      refine hstays (hwhy.imp id fun hchildren => ?_) failure
      obtain ⟨name, hname⟩ := List.exists_mem_of_ne_nil _ hchildren
      exact ⟨name, mem_children.mp hname⟩

end Disk

/-! ## Every removal -/

namespace Rimraf

variable {d : Disk} {root : FsPath} {gone gone' : Gone} {first : Option FsFailure}

/-- A task of the tree accounts for all it is about. -/
def Task.Accounted (d : Disk) (root : FsPath) : Task → Gone → Option FsFailure → Gone → Prop
  | .entry p, gone, first, gone' =>
    ∀ q budget, d.Leads root p q budget → Disk.Clear root q gone → (d.kind q).isSome → d.Outcome root q gone first gone'
  | .directory p _, gone, first, gone' =>
    ∀ q budget, d.Leads root p q budget → Disk.Clear root q gone → d.kind q = some .directory →
      d.Outcome root q gone first gone'
  | .children paths, gone, first, gone' =>
    ∀ p q budget names, paths = names.map (· :: p) → names.Nodup → (∀ name ∈ names, name ∈ d.names q) →
      d.Leads root p q budget → d.kind q = some .directory → (∀ name ∈ names, Disk.Clear root (name :: q) gone) →
      d.ChildrenOutcome root q names gone first gone'

theorem accounted_leaf (hholds : d.LinksHold root) {p q : FsPath} {budget : Nat} {kind : EntryKind}
    (hleads : d.Leads root p q budget) (hclear : Disk.Clear root q gone) (hkind : d.kind q = some kind)
    (hleaf : kind ≠ .directory) (h : Removes d (.entry p) gone first gone') : d.Outcome root q gone first gone' := by
  have hp := hleads.locate hclear
  have hentry := rimrafEntry_leaf hp hclear hkind hleaf
  have hsingle : ∀ x, q <:+ x → (d.kind x).isSome → x = q := fun x => Disk.eq_of_leaf hkind hleaf
  have hleft : d.HasFault q → ∀ x, q <:+ x → (d.kind x).isSome → d.Excused root gone x := by
    intro hfault x hsuffix hx
    obtain rfl := hsingle x hsuffix hx
    exact .inl hfault
  have hvanishing : d.Vanishing q → d.HasFault q := by
    rintro ⟨-, -, hfault | hfault⟩
    · exact ⟨.lstat, by simp [hfault]⟩
    · exact ⟨.unlink, by simp [hfault]⟩
  cases h with
  | refused h =>
    rw [h] at hentry
    cases hentry with
    | failed hfault => exact .left (hleft hfault) hclear.not_mem (by simp)
  | settled h =>
    rw [h] at hentry
    cases hentry with
    | removed => exact .single hsingle
    | vanished hlink => exact .left (hleft (hvanishing hlink)) hclear.not_mem fun _ => hlink
  | descends h hdirectory =>
    rw [h] at hentry
    cases hentry with
    | @routed original hrefuses hlink =>
      have hrmdir : ∀ target e, kind = .link target → d.fault .rmdir q = some e → e.rmdirDescends = false :=
        fun target e hlinkKind hfault => hholds q target e hleads.1 (hlinkKind ▸ hkind) hrefuses hfault
      have hfirst := @rmdirFirst_leaf d root p q budget gone kind original hp hclear hkind hleaf hlink hrmdir
      cases hdirectory with
      | firstRefused _ => exact .left (hleft hrefuses.hasFault) hclear.not_mem (by simp)
      | firstSettled hsettled =>
        rcases hfirst with hfirst | ⟨hvanishing, hfirst⟩ | ⟨failure, hfirst⟩
        · cases hfirst.symm.trans hsettled
          exact .single hsingle
        · cases hfirst.symm.trans hsettled
          exact .left (hleft hrefuses.hasFault) hclear.not_mem fun _ => hvanishing
        · cases hfirst.symm.trans hsettled
      | emptied hchildren _ _ =>
        rcases hfirst with hfirst | ⟨-, hfirst⟩ | ⟨failure, hfirst⟩ <;> cases hfirst.symm.trans hchildren

/-- A removal accounts for the tree below each of its tasks: by cases on what
the entry is, the children of a directory one after another. -/
theorem Removes.accounted (hholds : d.LinksHold root) {task : Task} (h : Removes d task gone first gone') :
    task.Accounted d root gone first gone' := by
  induction h with
  | refused h =>
    intro q budget hleads hclear hsome
    obtain ⟨kind, hkind⟩ := Option.isSome_iff_exists.mp hsome
    by_cases hdirectory : kind = .directory
    · subst hdirectory
      rcases rimrafEntry_directory (hleads.locate hclear) hclear hkind with ⟨original, hentry⟩ | ⟨hfault, -⟩
      · cases hentry.symm.trans h
      · exact .blocked hleads.1 hclear.not_mem ⟨hkind, .inl hfault⟩ ⟨.lstat, hfault⟩ _
    · exact accounted_leaf hholds hleads hclear hkind hdirectory (.refused h)
  | settled h =>
    intro q budget hleads hclear hsome
    obtain ⟨kind, hkind⟩ := Option.isSome_iff_exists.mp hsome
    by_cases hdirectory : kind = .directory
    · subst hdirectory
      rcases rimrafEntry_directory (hleads.locate hclear) hclear hkind with ⟨original, hentry⟩ | ⟨-, failure, hentry⟩
      · cases hentry.symm.trans h
      · cases hentry.symm.trans h
    · exact accounted_leaf hholds hleads hclear hkind hdirectory (.settled h)
  | descends h hremoves ih =>
    intro q budget hleads hclear hsome
    obtain ⟨kind, hkind⟩ := Option.isSome_iff_exists.mp hsome
    by_cases hdirectory : kind = .directory
    · subst hdirectory
      exact ih q budget hleads hclear hkind
    · exact accounted_leaf hholds hleads hclear hkind hdirectory (.descends h hremoves)
  | firstRefused h =>
    intro q budget hleads hclear hkind
    rcases rmdirFirst_directory (hleads.locate hclear) hclear hkind with ⟨-, hfirst⟩ | hfirst | ⟨-, hblocks, hfault⟩
    · cases hfirst.symm.trans h
    · cases hfirst.symm.trans h
    · exact .blocked hleads.1 hclear.not_mem hblocks hfault _
  | firstSettled h =>
    intro q budget hleads hclear hkind
    rcases rmdirFirst_directory (hleads.locate hclear) hclear hkind with ⟨hempty, hfirst⟩ | hfirst |
      ⟨⟨failure, hfirst⟩, -⟩
    · cases hfirst.symm.trans h
      refine .single fun x hsuffix hx => ?_
      rcases Disk.below_cases hx hsuffix with rfl | ⟨-, name, hname, -⟩
      · rfl
      · rw [hempty] at hname
        exact absurd hname List.not_mem_nil
    · cases hfirst.symm.trans h
    · cases hfirst.symm.trans h
  | emptied h hchildren hlast ih =>
    intro q budget hleads hclear hkind
    rcases rmdirFirst_directory (hleads.locate hclear) hclear hkind with ⟨-, hfirst⟩ | hfirst | ⟨⟨failure, hfirst⟩, -⟩
    · cases hfirst.symm.trans h
    · cases hfirst.symm.trans h
      have houtcome := ih _ q budget (d.names q) rfl (d.names_nodup q) (fun _ hname => hname) hleads hkind
        fun name _ => hclear.child name
      exact houtcome.directory hleads hclear hkind hlast
    · cases hfirst.symm.trans h
  | nil =>
    intro p q budget names hpaths hnodup hnames hleads hkind hclear
    obtain rfl := List.map_eq_nil_iff.mp hpaths.symm
    exact .nil
  | cons hentry hrest ihentry ihrest =>
    intro p q budget names hpaths hnodup hnames hleads hkind hclear
    cases names with
    | nil => cases hpaths
    | cons name names =>
      obtain ⟨rfl, rfl⟩ := List.cons.inj hpaths
      obtain ⟨hfresh, hnodup⟩ := List.nodup_cons.mp hnodup
      have hfirst := ihentry (name :: q) budget (hleads.child hkind name) (hclear name List.mem_cons_self)
        (Disk.isSome_kind_of_mem hkind (hnames name List.mem_cons_self))
      refine .cons hfresh hfirst (ihrest p q budget names rfl hnodup
        (fun other hother => hnames other (List.mem_cons_of_mem name hother)) hleads hkind fun other hother => ?_)
      have hne : name ≠ other := by
        rintro rfl
        exact hfresh hother
      exact hfirst.clear hleads.1 hne (hclear other (List.mem_cons_of_mem name hother))

end Rimraf

/-! ## Recursive removal -/

/-- A recursive removal ends alike in Python and Rust: with the error of the
path's own `lstat`, or as its removal does. -/
theorem remove_eq (d : Disk) (hunlink : RustRimraf.NoDirectoryKind d) (p : FsPath) (force : Bool) :
    ∃ outcome gone,
      (∃ fuel, ∀ fuel' ≥ fuel, Rimraf.removeSync d [] fuel' p true force = some (outcome, gone)) ∧
      (∃ fuel, ∀ fuel' ≥ fuel, RustRimraf.remove d [] fuel' p true force = some (outcome, gone)) ∧
      ((∃ e, d.lstat [] p = .error e ∧ outcome = .error (.failed ⟨p, e⟩) ∧ gone = []) ∨
        ∃ first, Removes d (.entry p) [] first gone ∧ outcome = raiseRemove first) := by
  obtain ⟨bound, hbound⟩ := d.exists_within p
  obtain ⟨first, gone, hremoves⟩ := exists_removes hbound []
  obtain ⟨fuel, hpython⟩ := Rimraf.removeTarget_of_removes hremoves
  obtain ⟨rustFuel, hrust⟩ := RustRimraf.removeTarget_of_removes hunlink hremoves
  have hpython' := fun fuel' (hfuel : fuel' ≥ fuel) => Rimraf.removeTarget_mono hfuel hpython
  have hrust' : ∀ fuel' ≥ rustFuel, RustRimraf.removeTarget d [] fuel' p = some (raiseRemove first, gone) :=
    fun fuel' hfuel => Loop.run_mono hfuel hrust
  cases hlstat : d.lstat [] p with
  | ok kind =>
    refine ⟨raiseRemove first, gone, ⟨fuel, fun fuel' hfuel => ?_⟩, ⟨rustFuel, fun fuel' hfuel => ?_⟩,
      .inr ⟨first, hremoves, rfl⟩⟩
    · simpa [Rimraf.removeSync, hlstat] using hpython' fuel' hfuel
    · simpa [RustRimraf.remove, hlstat] using hrust' fuel' hfuel
  | error e =>
    cases hproceed : force && e.vanished with
    | true =>
      refine ⟨raiseRemove first, gone, ⟨fuel, fun fuel' hfuel => ?_⟩, ⟨rustFuel, fun fuel' hfuel => ?_⟩,
        .inr ⟨first, hremoves, rfl⟩⟩
      · simpa [Rimraf.removeSync, hlstat, hproceed] using hpython' fuel' hfuel
      · have hmissing : (force && RustRimraf.missing e) = true := hproceed
        simpa [RustRimraf.remove, hlstat, hmissing] using hrust' fuel' hfuel
    | false =>
      refine ⟨.error (.failed ⟨p, e⟩), [], ⟨0, fun fuel' _ => ?_⟩, ⟨0, fun fuel' _ => ?_⟩, .inl ⟨e, rfl, rfl, rfl⟩⟩
      · simp [Rimraf.removeSync, hlstat, hproceed]
      · have hmissing : (force && RustRimraf.missing e) = false := hproceed
        simp [RustRimraf.remove, hlstat, hmissing]

/-- The outcome of a recursive removal of a tree, whose own `lstat` may
fail. -/
theorem outcome_of_remove {d : Disk} {root p : FsPath} {budget : Nat} {outcome : Except RemoveError Unit} {gone : Gone}
    (hleads : d.Leads root p root budget) (hroot : (d.kind root).isSome) (hholds : d.LinksHold root)
    (h : (∃ e, d.lstat [] p = .error e ∧ outcome = .error (.failed ⟨p, e⟩) ∧ gone = []) ∨
      ∃ first, Removes d (.entry p) [] first gone ∧ outcome = raiseRemove first) :
    ∃ first, d.Outcome root root [] first gone ∧ (outcome = .ok () ↔ first = none) := by
  have hclear : Disk.Clear root root [] := by simp [Disk.Clear]
  rcases h with ⟨e, hlstat, rfl, rfl⟩ | ⟨first, hremoves, rfl⟩
  · obtain ⟨kind, hkind⟩ := Option.isSome_iff_exists.mp hroot
    have hfault : d.fault .lstat root = some e := by
      rw [Disk.lstat_of_locate (hleads.locate hclear) (hclear.present hkind)] at hlstat
      cases hfault : d.fault .lstat root with
      | none => simp [hfault] at hlstat
      | some e' => simpa [hfault] using hlstat
    refine ⟨some ⟨p, e⟩, .left (fun x hsuffix hx => ?_) List.not_mem_nil (by simp), by simp⟩
    by_cases hx' : x = root
    · subst hx'
      exact .inl ⟨.lstat, by simp [hfault]⟩
    · rcases Disk.below_cases hx hsuffix with rfl | ⟨hdirectory, -⟩
      · exact absurd rfl hx'
      · exact .inr (.inr ⟨root, List.suffix_rfl, hsuffix, Ne.symm hx', hdirectory, .inl (by simp [hfault])⟩)
  · refine ⟨first, Removes.accounted hholds hremoves root budget hleads hclear hroot, ?_⟩
    cases first <;> simp [raiseRemove, raiseFirst, Except.mapError]

/-- A path of plain directories leads to the entry it names. -/
theorem Disk.leads_self (d : Disk) {q : FsPath} (hq : (d.kind q).isSome) : d.Leads q q q d.linkLimit := by
  refine ⟨List.suffix_rfl, fun gone hgone => ?_⟩
  have hlocate : ∀ x, x <:+ q → (d.kind x).isSome → d.locate gone x = .ok (x, d.linkLimit) := by
    intro x
    induction x with
    | nil => exact fun _ _ => rfl
    | cons name x ih =>
      intro hsuffix hx
      have habove : x <:+ q := (List.suffix_cons name x).trans hsuffix
      obtain ⟨hdirectory, -⟩ := (d.kind_cons name x).mp hx
      have hpresent : d.present gone x = some .directory :=
        Disk.present_eq_some.mpr ⟨fun hmem => (hgone x hmem).2 habove, hdirectory⟩
      exact Disk.locate_child (ih habove (by simp [hdirectory])) hpresent name
  exact hlocate q List.suffix_rfl hq

/-- Recursive removal ends alike in Python and Rust, with the same entries
gone.  Of a tree whose links hold it removes nothing else than entries of the
tree, it leaves behind only what it is excused from, and it succeeds exactly
when all of the tree is gone. -/
theorem recursive_removal (d : Disk) (hunlink : RustRimraf.NoDirectoryKind d) (p : FsPath) (force : Bool) :
    ∃ outcome gone,
      (∃ fuel, ∀ fuel' ≥ fuel, Rimraf.removeSync d [] fuel' p true force = some (outcome, gone)) ∧
      (∃ fuel, ∀ fuel' ≥ fuel, RustRimraf.remove d [] fuel' p true force = some (outcome, gone)) ∧
      ∀ root budget, d.Leads root p root budget → (d.kind root).isSome → d.LinksHold root →
        (∀ x ∈ gone, root <:+ x) ∧
        (∀ x, root <:+ x → (d.kind x).isSome → x ∉ gone → d.Excused root gone x) ∧
        (¬ d.Vanishing root → (outcome = .ok () ↔ ∀ x, root <:+ x → (d.kind x).isSome → x ∈ gone)) := by
  obtain ⟨outcome, gone, hpython, hrust, hend⟩ := remove_eq d hunlink p force
  refine ⟨outcome, gone, hpython, hrust, fun root budget hleads hroot hholds => ?_⟩
  obtain ⟨first, houtcome, hok⟩ := outcome_of_remove hleads hroot hholds hend
  refine ⟨fun x hx => ?_, houtcome.accounted, fun hvanishing => hok.trans ⟨fun hnone => ?_, fun hall => ?_⟩⟩
  · exact (houtcome.contained x hx).resolve_left List.not_mem_nil
  · exact houtcome.complete ((houtcome.removed hnone).resolve_right hvanishing)
  · exact houtcome.succeeds (hall root List.suffix_rfl hroot)

/-- A directory `t` that holds a link to the directory `o` beside it.  The link
may be another user's in a sticky directory: then neither `unlink` nor `rmdir`
is permitted on it.  The `lstat` of `t` may fail. -/
def linkDisk (sticky failing : Bool) : Disk where
  platform := .posix
  linkLimit := 40
  kind q :=
    if q = [] ∨ q = ["t"] ∨ q = ["o"] then some .directory
    else if q = ["l", "t"] then some (.link ["o"])
    else if q = ["f", "o"] then some .file
    else none
  names q := if q = [] then ["t", "o"] else if q = ["t"] then ["l"] else if q = ["o"] then ["f"] else []
  fault call q :=
    if sticky ∧ q = ["l", "t"] ∧ (call = .unlink ∨ call = .rmdir) then some .notPermitted
    else if failing ∧ q = ["t"] ∧ call = .lstat then some (.other 5)
    else none
  answersIsDirectory _ := true
  directoryLink _ := false
  depth := 2
  kind_nil := by simp
  kind_cons := by
    intro name p
    by_cases hp : p = [] ∨ p = ["t"] ∨ p = ["o"]
    · rcases hp with rfl | rfl | rfl <;> simp
    · simp only [not_or] at hp
      simp [hp]
  names_nodup := by
    intro p
    grind
  length_le := by
    intro p hp
    grind
  fault_ne_notFound := by
    intro call p
    grind
  rmdir_ne_notDirectory := by
    intro p _
    grind

/-- Removal lists a link that refuses both `unlink` and `rmdir`, and removes
what is in the directory the link leads to.  It leaves all of a tree whose own
`lstat` fails, where no other call fails. -/
theorem removal_not_contained :
    ((linkDisk true false).Leads ["t"] ["t"] ["t"] 40 ∧
      Rimraf.removeSync (linkDisk true false) [] 5 ["t"] true false =
        some (.error (.failed ⟨["l", "t"], .notPermitted⟩), [["f", "o"]]) ∧
      RustRimraf.remove (linkDisk true false) [] 8 ["t"] true false =
        some (.error (.failed ⟨["l", "t"], .notPermitted⟩), [["f", "o"]]) ∧
      ¬ ["t"] <:+ ["f", "o"]) ∧
    Rimraf.removeSync (linkDisk false true) [] 0 ["t"] true false = some (.error (.failed ⟨["t"], .other 5⟩), []) ∧
    RustRimraf.remove (linkDisk false true) [] 0 ["t"] true false = some (.error (.failed ⟨["t"], .other 5⟩), []) ∧
    ((linkDisk false true).kind ["l", "t"]).isSome ∧
    ∀ call q, (linkDisk false true).fault call q ≠ none → call = .lstat ∧ q = ["t"] := by
  refine ⟨⟨(linkDisk true false).leads_self (by simp [linkDisk]), by rfl, by rfl, by decide⟩, by rfl, by rfl,
    by simp [linkDisk], ?_⟩
  intro call q hfault
  simp only [linkDisk] at hfault
  grind

/-- The same tree with a link that can be unlinked: only the tree goes. -/
theorem recursive_removal_link :
    ∃ outcome gone, (∃ fuel, ∀ fuel' ≥ fuel,
        Rimraf.removeSync (linkDisk false false) [] fuel' ["t"] true false = some (outcome, gone)) ∧
      (∀ x ∈ gone, ["t"] <:+ x) ∧
      (outcome = .ok () ↔ ∀ x, ["t"] <:+ x → ((linkDisk false false).kind x).isSome → x ∈ gone) := by
  obtain ⟨outcome, gone, hpython, -, htree⟩ := recursive_removal (linkDisk false false)
    (fun hwindows => absurd hwindows (by simp [linkDisk])) ["t"] false
  have hkind : ((linkDisk false false).kind ["t"]).isSome := by simp [linkDisk]
  obtain ⟨hcontained, -, hok⟩ := htree ["t"] 40 ((linkDisk false false).leads_self hkind) hkind
    (fun q target e _ _ hrefuses => by simp [Disk.Refuses, linkDisk] at hrefuses)
  exact ⟨outcome, gone, hpython, hcontained, hok (by simp [Disk.Vanishing, linkDisk])⟩

end MinionAgent
