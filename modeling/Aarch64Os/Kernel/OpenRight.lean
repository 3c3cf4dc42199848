import Mathlib
import Aarch64Os.Kernel.InodeOwners

/-!
# What `open` leaves behind (`kernel/file.c`)

`open` takes its inode references in the lookup and its file slot before it looks at
`O_DIRECTORY` and for a descriptor. No exit gives either back. Where it succeeds, it has taken
one slot and the lowest free descriptor.
-/

namespace Aarch64Os.Kernel
set_option autoImplicit false
open Base

theorem File.access_off (file : File) (flags : BitVec 32) : (file.access flags).off = file.off := by
  unfold File.access
  split
  · rfl
  split
  · rfl
  split <;> rfl

/-- `allocfd` finds the lowest descriptor. -/
theorem Proc.allocfd_lowest {p : Proc} {fd : Fd} (h : p.allocfd = some fd) : p.ofile fd = none ∧ ∀ e < fd, p.ofile e ≠ none := by
  unfold Proc.allocfd at h
  rw [← Fin.find?_eq_find?_finRange, Fin.find?_eq_some_iff] at h
  constructor
  · simpa using h.1
  · intro e lt
    simpa using h.2 e lt

section Open
variable {s : Files} {p : ProcId} {flags : BitVec 32} {found : Option (InodeId × BitVec 16)}

/-- The calls that find an inode and a file slot. -/
def Files.TakesSlot (s : Files) (found : Option (InodeId × BitVec 16)) : Prop := found.isSome ∧ s.files.allocFile.isSome

/-- `open` without an inode or a slot leaves everything as it is. -/
theorem Files.open_none (none : ¬ s.TakesSlot found) : s.open p found flags = (-1, s) := by
  unfold TakesSlot at none
  unfold Files.open
  cases found with
  | none => rfl
  | some r =>
    obtain ⟨ino, mode⟩ := r
    cases alloc : s.files.allocFile with
    | none => rfl
    | some r => simp [alloc] at none

/-- With both, the slot is taken on every path, -/
theorem Files.open_files (p : ProcId) (ino : InodeId) (mode : BitVec 16) (flags : BitVec 32) {f : FileId} {files : FileTable}
    (alloc : s.files.allocFile = some (f, files)) :
    (s.open p (some (ino, mode)) flags).2.files =
      s.files.set f fun file => ({ file with ref := 1, ino := some ino, off := 0 }).access flags := by
  obtain ⟨-, rfl⟩ := FileTable.allocFile_some alloc
  unfold Files.open
  simp only [alloc, FileTable.set_set]
  split
  · rfl
  split <;> rfl

/-- and the result is -1, or the lowest free descriptor, which refers to the slot. -/
theorem Files.open_fd (p : ProcId) (ino : InodeId) (mode : BitVec 16) (flags : BitVec 32) {f : FileId} {files : FileTable}
    (alloc : s.files.allocFile = some (f, files)) :
    (s.open p (some (ino, mode)) flags).1 = -1 ∨
      ∃ fd : Fd, (s.open p (some (ino, mode)) flags).1 = (fd : Nat) ∧ (s.procs p).ofile fd = none ∧
        (∀ e < fd, (s.procs p).ofile e ≠ none) ∧
        ((s.open p (some (ino, mode)) flags).2.procs p).ofile = Function.update (s.procs p).ofile fd (some f) := by
  unfold Files.open
  simp only [alloc]
  split
  · exact .inl rfl
  split
  case h_1 => exact .inl rfl
  case h_2 fd lowest =>
    obtain ⟨unused, lower⟩ := Proc.allocfd_lowest lowest
    right
    exact ⟨fd, rfl, unused, lower, by simp [Proc.setFd]⟩

end Open

namespace Kern
variable {s t : Kern} {p : ProcId} {cwd : InodeId} {path : List Chr} {flags : BitVec 32} {n : Int}

/-- `open`, with its result. -/
def openCall (s : Kern) (p : ProcId) (cwd : InodeId) (path : List Chr) (flags : BitVec 32) : Except Fault (Int × Kern) :=
  (ext2Path2inode cwd path s.fs).map fun r =>
    let opened := s.files.open p (r.1.map fun i => (i, (r.2.itable i).mode)) flags
    (opened.1, { files := opened.2, fs := r.2 })

/-- It is the call of the machine. -/
theorem open_eq_openCall : s.open p cwd path flags = (s.openCall p cwd path flags).toOption.map Prod.snd := by
  unfold Kern.open openCall after
  cases ext2Path2inode cwd path s.fs <;> rfl

/-- The file table, the reference counts of the inodes and the descriptors of the process are as before. -/
structure Undone (s t : Kern) (p : ProcId) : Prop where
  files : t.files.files = s.files.files
  irefs : t.fs.irefs = s.fs.irefs
  ofile : (t.files.procs p).ofile = (s.files.procs p).ofile

/-- The descriptor was the lowest unused one, and it refers to the one slot that has changed, from
free to referenced once at offset 0. -/
structure Opened (s t : Kern) (p : ProcId) (fd : Fd) (f : FileId) : Prop where
  unused : (s.files.procs p).ofile fd = none
  lowest : ∀ e < fd, (s.files.procs p).ofile e ≠ none
  ofile : (t.files.procs p).ofile = Function.update (s.files.procs p).ofile fd (some f)
  free : (s.files.files f).ref = 0
  once : (t.files.files f).ref = 1
  start : (t.files.files f).off = 0
  others : ∀ g, g ≠ f → t.files.files g = s.files.files g

/-- The lookup takes no reference: each inode it loads, it loads a multiple of 2^32 times. -/
def TakesNoInode (s : Kern) (cwd : InodeId) (path : List Chr) : Prop :=
  ∀ i, (pathLoads AtEnd cwd path s.fs).count i % 2 ^ 32 = 0

theorem takesNoInode_iff {fs : Fs} (taken : fs.irefs = s.fs.irefs + loadCount (pathLoads AtEnd cwd path s.fs)) :
    fs.irefs = s.fs.irefs ↔ s.TakesNoInode cwd path := by
  rw [taken, add_eq_left]
  unfold TakesNoInode
  constructor
  · intro none i
    have zero := congrArg BitVec.toNat (congrFun none i)
    rw [loadCount_apply, BitVec.toNat_ofNat] at zero
    exact zero
  · intro none
    funext i
    apply BitVec.eq_of_toNat_eq
    rw [loadCount_apply, BitVec.toNat_ofNat, none i]
    rfl

/-- The lookup finds what it is said to find. -/
theorem finds_eq {found : Option InodeId} {fs : Fs} (run : ext2Path2inode cwd path s.fs = .ok (found, fs)) :
    s.finds cwd path = found.isSome := by
  unfold finds
  rw [run]
  cases found <;> rfl

/-- **What `open` leaves behind.** A descriptor it returns was the lowest unused one, and one file
slot has gone from free to referenced once at offset 0. Where it returns -1, everything is as
before exactly when the lookup takes no reference and there was no inode to open or no slot. -/
theorem open_undone_iff (run : s.openCall p cwd path flags = .ok (n, t)) :
    (n = -1 ∨ 0 ≤ n) ∧
    (0 ≤ n → ∃ (fd : Fd) (f : FileId), n = (fd : Nat) ∧ Opened s t p fd f) ∧
    (n = -1 → (Undone s t p ↔ s.TakesNoInode cwd path ∧ (s.finds cwd path = false ∨ s.files.files.allocFile = none))) := by
  unfold openCall at run
  cases lookup : ext2Path2inode cwd path s.fs with
  | error e =>
    rw [lookup] at run
    cases run
  | ok r =>
  obtain ⟨found, fs⟩ := r
  rw [lookup] at run
  have counts := takesNoInode_iff (irefs_ext2Path2inode s.fs cwd path _ _ lookup)
  have finds := finds_eq lookup
  by_cases takes : found.isSome ∧ s.files.files.allocFile.isSome
  · obtain ⟨isSome, slot⟩ := takes
    obtain ⟨ino, rfl⟩ := Option.isSome_iff_exists.1 isSome
    obtain ⟨⟨f, files⟩, alloc⟩ := Option.isSome_iff_exists.1 slot
    obtain ⟨free, -⟩ := FileTable.allocFile_some alloc
    have taken := Files.open_files p ino (fs.itable ino).mode flags alloc
    have result := Files.open_fd p ino (fs.itable ino).mode flags alloc
    cases run
    constructor
    · obtain none | ⟨fd, eq, -⟩ := result
      · exact .inl none
      · right
        show 0 ≤ (s.files.open p (some (ino, (fs.itable ino).mode)) flags).1
        omega
    constructor
    · intro nonneg
      obtain none | ⟨fd, eq, unused, lowest, ofile⟩ := result
      · exact absurd (none.symm ▸ nonneg) (by decide)
      · refine ⟨fd, f, eq, unused, lowest, ofile, free, ?_, ?_, fun g ne => ?_⟩
        · exact (congrArg File.ref (congrFun taken f)).trans (by simp)
        · exact (congrArg File.off (congrFun taken f)).trans (by simp [File.access_off])
        · exact (congrFun taken g).trans (FileTable.set_ne _ _ ne)
    · -- the slot is taken
      intro _
      apply iff_of_false
      · intro undone
        have same := (congrArg File.ref (congrFun taken f)).symm.trans (congrArg File.ref (congrFun undone.files f))
        simp [free] at same
      · intro ⟨_, either⟩
        obtain absent | full := either
        · rw [finds] at absent
          cases absent
        · rw [full] at alloc
          cases alloc
  · have none : ¬ s.files.TakesSlot (found.map fun i => (i, (fs.itable i).mode)) := by
      simpa [Files.TakesSlot] using takes
    simp only [Except.map, s.files.open_none none] at run
    cases run
    refine ⟨.inl rfl, fun nonneg => absurd nonneg (by decide), fun _ => ?_⟩
    constructor
    · intro undone
      constructor
      · exact counts.1 undone.irefs
      · rw [finds]
        cases found with
        | none => exact .inl rfl
        | some ino => exact .inr (by simpa using takes)
    · intro ⟨still, _⟩
      exact ⟨rfl, counts.2 still, rfl⟩

/-- The first process opens `/`, and has descriptor 0. -/
theorem open_undone_iff_root : ∃ (s t : Kern) (f : FileId), system.Reach s ∧
    s.openCall initproc 0 [SLASH] O_RDONLY = .ok (0, t) ∧ Opened s t initproc 0 f := by
  have ran : ((system.step treeKern (.tail initproc)).any fun u =>
      (u.openCall initproc 0 [SLASH] O_RDONLY).toOption.any fun r => r.1 = 0) = true := by decide +kernel
  obtain ⟨s, tail, opens⟩ := (Option.any_eq_true _ _).1 ran
  obtain ⟨n, t, run, zero⟩ := ok_of_any opens
  obtain rfl : n = 0 := of_decide_eq_true zero
  obtain ⟨fd, f, eq, opened⟩ := (open_undone_iff run).2.1 (by decide)
  obtain rfl : fd = 0 := Fin.ext (by simpa using eq.symm)
  exact ⟨s, t, f, .step (.init treeKern_booted) trivial tail, run, opened⟩

/-- It opens the file `/f` as a directory, which fails: the slot stays taken, and the references
of the lookup to the root and the file stay counted. -/
theorem open_keeps_slot : ∃ s t : Kern, system.Reach s ∧ (s.files.procs initproc).cwd = some 0 ∧
    s.openCall initproc 0 [SLASH, F] O_DIRECTORY = .ok (-1, t) ∧ (s.files.files 0).ref = 0 ∧ (t.files.files 0).ref = 1 ∧
    s.fs.irefs 1 = 0 ∧ t.fs.irefs 1 = 1 ∧ ¬ Undone s t initproc := by
  have ran : ((system.step treeKern (.tail initproc)).any fun u =>
      (u.files.procs initproc).cwd = some 0 ∧ (u.files.files 0).ref = 0 ∧ u.fs.irefs 1 = 0 ∧
        ((u.openCall initproc 0 [SLASH, F] O_DIRECTORY).toOption.any fun r =>
          r.1 = -1 ∧ (r.2.files.files 0).ref = 1 ∧ r.2.fs.irefs 1 = 1) = true) = true := by decide +kernel
  obtain ⟨s, tail, here⟩ := (Option.any_eq_true _ _).1 ran
  obtain ⟨cwd, free, none, opens⟩ := of_decide_eq_true here
  obtain ⟨n, t, run, after⟩ := ok_of_any opens
  obtain ⟨rfl, taken, one⟩ := of_decide_eq_true after
  refine ⟨s, t, .step (.init treeKern_booted) trivial tail, cwd, run, free, taken, none, one, fun undone => ?_⟩
  have same := congrArg File.ref (congrFun undone.files 0)
  rw [free, taken] at same
  cases same

end Kern

end Aarch64Os.Kernel
