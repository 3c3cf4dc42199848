import Mathlib
import Aarch64Os.Base.Counting
import Aarch64Os.Base.Transition
import Aarch64Os.Kernel.Ext2.InodeRefs
import Aarch64Os.Kernel.Ext2.Super
import Aarch64Os.Kernel.FileTable

/-!
# Who refers to an inode (`kernel/file.c`, `kernel/proc.c`, `kernel/fs.c`)

The file table, the processes and the file system together, between system calls. Open files
and the working directories of live processes refer to inodes; lookups and new inodes count
the references. Nothing counts down, so the two agree along a run only while every call that
counts one up also makes a reference, and none drops one.
-/

namespace Aarch64Os.Kernel
set_option autoImplicit false
open Base

/-- The kernel between two system calls. -/
structure Kern where
  files : Files
  fs : Fs

/-- An open file refers to the inode. -/
def File.holds (file : File) (i : InodeId) : Nat := if 0 < file.ref ∧ file.ino = some i then 1 else 0

/-- A live process has the inode as its working directory. -/
def Proc.stays (p : Proc) (i : InodeId) : Nat := if p.live ∧ p.cwd = some i then 1 else 0

/-- The references to an inode. -/
def Files.owners (s : Files) (i : InodeId) : Nat := (∑ f, (s.files f).holds i) + ∑ p, (s.procs p).stays i

/-- The calls. Of `exec` the model takes the reads it makes of the file, and what it has built in
the end; of `fork`, what the allocator answers. -/
inductive KernCall
  | open (path : List Chr) (flags : BitVec 32)
  | close (fd : BitVec 32)
  | chdir (path : List Chr)
  | exec (path : List Chr) (reads : List (BitVec 64 × BitVec 64)) (image : Option (PageNo × Nat))
  | fork (kstack pgt : Option PageNo) (copied : Bool)
  | exit (ret : Int)
  | mkdir (path : List Chr)
  | mknod (path : List Chr) (mode dev : BitVec 32)

/-- What a process does: `schedule_tail` first, calls behind it. -/
inductive KernAct
  | tail (p : ProcId)
  | call (p : ProcId) (c : KernCall)

namespace Kern

/-- A call to the file system, and what the rest of the kernel makes of its result. -/
def after {α : Type} (s : Kern) (f : FsM α) (k : α → Fs → Option Files) : Option Kern :=
  match f s.fs with
  | .error _ => none
  | .ok (a, fs) => (k a fs).map fun files => { files := files, fs := fs }

/-- `p->cwd = ino`. -/
def setCwd (s : Kern) (p : ProcId) (ino : InodeId) : Files :=
  { s.files with procs := s.files.procs.set p fun q => { q with cwd := some ino } }

/-- `schedule_tail`: the first process looks up `/`, and panics when there is none. -/
def tail (s : Kern) (p : ProcId) : Option Kern :=
  match (s.files.procs p).cwd with
  | some _ => some s
  | none => s.after (ext2Path2inode 0 [SLASH]) fun found _ => found.map (s.setCwd p)

/-- `open`. -/
def «open» (s : Kern) (p : ProcId) (cwd : InodeId) (path : List Chr) (flags : BitVec 32) : Option Kern :=
  s.after (ext2Path2inode cwd path) fun found fs =>
    some (s.files.open p (found.map fun i => (i, (fs.itable i).mode)) flags).2

/-- `chdir`. -/
def chdir (s : Kern) (p : ProcId) (cwd : InodeId) (path : List Chr) : Option Kern :=
  s.after (ext2Path2inode cwd path) fun found fs =>
    match found with
    | none => some s.files
    | some ino => some (if S_ISDIR (fs.itable ino).mode then s.setCwd p ino else s.files)

/-- One read after another. -/
def readAll (ino : InodeId) : List (BitVec 64 × BitVec 64) → FsM Unit
  | [] => pure ()
  | (off, size) :: reads => do
    let _ ← ext2ReadInode ino off size
    readAll ino reads

/-- The lookup of `exec`, and the reads behind it. -/
def execFile (cwd : InodeId) (path : List Chr) (reads : List (BitVec 64 × BitVec 64)) : FsM (Option InodeId) := do
  let found ← ext2Path2inode cwd path
  match found with
  | none => pure none
  | some ino =>
    readAll ino reads
    pure (some ino)

/-- `exec`. -/
def exec (s : Kern) (p : ProcId) (cwd : InodeId) (path : List Chr) (reads : List (BitVec 64 × BitVec 64))
    (image : Option (PageNo × Nat)) : Option Kern :=
  s.after (execFile cwd path reads) fun found _ => some (s.files.exec p (found.bind fun _ => image))

/-- The state a call leads to. -/
def call (s : Kern) (p : ProcId) (cwd : InodeId) : KernCall → Option Kern
  | .open path flags => s.open p cwd path flags
  | .close fd => some { s with files := (s.files.close p fd).2 }
  | .chdir path => s.chdir p cwd path
  | .exec path reads image => s.exec p cwd path reads image
  | .fork kstack pgt copied => some { s with files := (s.files.fork p kstack pgt copied).2 }
  | .exit ret => (s.files.exitproc p ret).map fun files => { s with files := files }
  | .mkdir path => s.after (ext2Mkdir cwd path) fun _ _ => some s.files
  | .mknod path mode dev => s.after (ext2Mknod cwd path mode dev) fun _ _ => some s.files

/-- Booted and mounted, with one process that has no working directory yet. -/
structure Booted (s : Kern) : Prop where
  files : s.files.Booted
  cwd : (s.files.procs initproc).cwd = none
  mounted : ∃ disk, ext2Init (Fs.boot disk) = .ok ((), s.fs)

/-- The machine. A process has run `schedule_tail` before it makes a call. -/
def system : System Kern KernAct where
  init := Booted
  step s
    | .tail p => if (s.files.procs p).live then s.tail p else none
    | .call p c => if (s.files.procs p).live then (s.files.procs p).cwd.bind fun cwd => s.call p cwd c else none

end Kern

section Owners
variable {s t : Files} {i : InodeId}

theorem File.holds_closed {file : File} (closed : file.ref = 0) (i : InodeId) : file.holds i = 0 := by
  simp [File.holds, closed]

theorem Proc.stays_dead {p : Proc} (dead : p.live = false) (i : InodeId) : p.stays i = 0 := by
  simp [Proc.stays, dead]

theorem Proc.stays_cwd {p : Proc} (live : p.live) (ino i : InodeId) :
    Proc.stays { p with cwd := some ino } i = if ino = i then 1 else 0 := by
  have live' : Proc.live { p with cwd := some ino } = true := live
  simp only [Proc.stays, live', true_and, Option.some.injEq]

theorem File.access_ino (file : File) (flags : BitVec 32) : (file.access flags).ino = file.ino := by
  unfold File.access
  split
  · rfl
  split
  · rfl
  split <;> rfl

theorem Proc.stays_congr {p q : Proc} (state : p.state = q.state) (cwd : p.cwd = q.cwd) (i : InodeId) : p.stays i = q.stays i := by
  have live : p.live = q.live := by simp only [Proc.live, state]
  unfold Proc.stays
  rw [live, cwd]

theorem Files.owners_congr (procs : s.procs = t.procs) (files : s.files = t.files) (i : InodeId) : s.owners i = t.owners i := by
  unfold Files.owners
  rw [procs, files]

/-- One file changes. -/
theorem Files.owners_setFile (s : Files) (f : FileId) (g : File → File) (i : InodeId) :
    Files.owners { s with files := s.files.set f g } i + (s.files f).holds i = s.owners i + (g (s.files f)).holds i := by
  have one := sum_update (fun file : File => file.holds i) s.files f (g (s.files f))
  show (∑ h, (Function.update s.files f (g (s.files f)) h).holds i) + _ + _ = _
  simp only [Files.owners]
  omega

/-- One process changes. -/
theorem Files.owners_setProc (s : Files) (p : ProcId) (g : Proc → Proc) (i : InodeId) :
    Files.owners { s with procs := s.procs.set p g } i + (s.procs p).stays i = s.owners i + (g (s.procs p)).stays i := by
  have one := sum_update (fun q : Proc => q.stays i) s.procs p (g (s.procs p))
  show _ + (∑ q, (Function.update s.procs p (g (s.procs p)) q).stays i) + _ = _
  simp only [Files.owners]
  omega

/-- A change of a process that leaves its directory and its state alone. -/
theorem Files.owners_setProc_same (s : Files) (p : ProcId) {g : Proc → Proc} (state : (g (s.procs p)).state = (s.procs p).state)
    (cwd : (g (s.procs p)).cwd = (s.procs p).cwd) (i : InodeId) : Files.owners { s with procs := s.procs.set p g } i = s.owners i := by
  have change := s.owners_setProc p g i
  rw [Proc.stays_congr state cwd] at change
  omega

/-- `open` makes a reference when it finds an inode and gets a slot, also where it fails behind that. -/
theorem Files.owners_open (s : Files) (p : ProcId) (found : Option (InodeId × BitVec 16)) (flags : BitVec 32) (i : InodeId) :
    (s.open p found flags).2.owners i = s.owners i + if s.files.allocFile.isSome ∧ found.map Prod.fst = some i then 1 else 0 := by
  unfold Files.open
  cases found with
  | none => simp
  | some r =>
  obtain ⟨ino, mode⟩ := r
  cases alloc : s.files.allocFile with
  | none => simp
  | some r =>
  obtain ⟨f, files⟩ := r
  obtain ⟨free, rfl⟩ := FileTable.allocFile_some alloc
  have slot := s.owners_setFile f (fun file => ({ file with ref := 1, ino := some ino, off := 0 }).access flags) i
  rw [File.holds_closed free, File.holds, File.access_ref, File.access_ino] at slot
  simp only [Nat.zero_lt_one, true_and, Option.some.injEq] at slot
  have total : Files.owners { s with files := s.files.set f fun file => ({ file with ref := 1, ino := some ino, off := 0 }).access flags } i =
      s.owners i + if ino = i then 1 else 0 := by omega
  simp only [FileTable.set_set, Option.isSome_some, true_and, Option.map_some, Option.some.injEq]
  rw [← total]
  split
  · rfl
  split
  · rfl
  · rename_i fd _
    exact Files.owners_setProc_same { s with files := _ } p (g := fun q => q.setFd fd (some f)) rfl rfl i

/-- `close` drops none, unless the file has no other descriptor. -/
theorem Files.owners_close (s : Files) (p : ProcId) (fd : BitVec 32)
    (shared : ∀ f, (s.procs p).fget fd = some f → (s.files f).ref ≠ 1) (i : InodeId) : (s.close p fd).2.owners i = s.owners i := by
  unfold Files.close
  split
  case h_1 => rfl
  case h_2 f got =>
    have more := shared f got
    split
    case isTrue => rfl
    case isFalse used =>
      have open_ : ((s.files.set f fun file => { file with ref := file.ref - 1 }) f).ref > 0 := by
        rw [FileTable.set_self]
        show 0 < (s.files f).ref - 1
        omega
      dsimp only
      rw [if_pos open_]
      have slot := s.owners_setFile f (fun file => { file with ref := file.ref - 1 }) i
      have same : ((fun file : File => { file with ref := file.ref - 1 }) (s.files f)).holds i = (s.files f).holds i := by
        have before : 0 < (s.files f).ref := by omega
        have behind : 0 < (s.files f).ref - 1 := by omega
        simp only [File.holds, before, behind]
      rw [same] at slot
      exact Nat.add_right_cancel slot

/-- A process that `newproc` makes is not live yet. -/
theorem Files.owners_newproc (s : Files) (kstack pgt : Option PageNo) (i : InodeId) :
    (s.newproc kstack pgt).2.owners i = s.owners i ∧ ∀ new, (s.newproc kstack pgt).1 = some new →
      ((s.newproc kstack pgt).2.procs new).state = .CREATED := by
  simp only [Files.newproc]
  cases found : s.procs.claim with
  | none => exact ⟨rfl, (by intro _ never; cases never)⟩
  | some claimed =>
    obtain ⟨slot, procs⟩ := claimed
    obtain ⟨unused, rfl⟩ := Procs.claim_some found
    obtain ⟨g, kept, filled, same⟩ := Procs.fill_eq (s.procs.set slot fun q => { q with state := .CREATED }) slot
      s.pid kstack pgt
    have created : (g { s.procs slot with state := .CREATED }).state = .CREATED := (kept _).2
    dsimp only
    rw [filled, Procs.set_set]
    refine ⟨?_, fun new given => ?_⟩
    · have change := s.owners_setProc slot (fun q => g { q with state := .CREATED }) i
      rw [Proc.stays_dead (by simp [Proc.live, unused]), Proc.stays_dead (by simp [Proc.live, created]), add_zero, add_zero] at change
      exact (Files.owners_congr (t := { s with procs := _ }) rfl rfl i).trans change
    · obtain rfl := same new given
      rw [Procs.set_self]
      exact created

/-- `fork` makes none when it fails. -/
theorem Files.owners_fork (s : Files) (p : ProcId) (kstack pgt : Option PageNo) (copied : Bool)
    (fails : (s.newproc kstack pgt).1 = none ∨ copied = false) (i : InodeId) :
    (s.fork p kstack pgt copied).2.owners i = s.owners i := by
  obtain ⟨same, state⟩ := s.owners_newproc kstack pgt i
  unfold Files.fork
  generalize s.newproc kstack pgt = made at *
  obtain ⟨_ | new, t⟩ := made
  · exact same
  · dsimp only
    rw [if_pos (fails.resolve_left nofun)]
    have created : (t.procs new).state = .CREATED := state new rfl
    have freed := t.owners_setProc new (fun _ => Proc.zero) i
    rw [Proc.stays_dead (by simp [Proc.live, created]), Proc.stays_dead (by rfl), add_zero, add_zero] at freed
    exact freed.trans same

/-- `exec` keeps the directory. -/
theorem Files.owners_exec (s : Files) (p : ProcId) (image : Option (PageNo × Nat)) (i : InodeId) :
    (s.exec p image).owners i = s.owners i := by
  cases image with
  | none => rfl
  | some image => exact s.owners_setProc_same p (g := fun q => { q with pgt := some image.1, size := image.2 }) rfl rfl i

/-- The first directory of a process. -/
theorem Files.owners_cwd (s : Files) (p : ProcId) (live : (s.procs p).live) (none : (s.procs p).cwd = none) (ino i : InodeId) :
    Files.owners { s with procs := s.procs.set p fun q => { q with cwd := some ino } } i = s.owners i + if ino = i then 1 else 0 := by
  have change := s.owners_setProc p (fun q => { q with cwd := some ino }) i
  have before : (s.procs p).stays i = 0 := by simp [Proc.stays, none]
  rw [before, add_zero, Proc.stays_cwd live] at change
  exact change

end Owners

namespace Kern
variable {s t : Kern} {p : ProcId} {cwd : InodeId} {i : InodeId}

/-- Each inode counts the references to it. -/
def Owned (s : Kern) : Prop := ∀ i, s.fs.irefs i = BitVec.ofNat 32 (s.files.owners i)

/-- The lookup finds an inode. -/
def finds (s : Kern) (cwd : InodeId) (path : List Chr) : Bool :=
  match ext2Path2inode cwd path s.fs with
  | .ok (some _, _) => true
  | _ => false

/-- `open` takes one reference when it makes one, and none otherwise. -/
def OpenFits (s : Kern) (cwd : InodeId) (path : List Chr) : Prop :=
  if s.finds cwd path ∧ s.files.files.allocFile.isSome then (pathLoads AtEnd cwd path s.fs).length = 1
  else pathLoads AtEnd cwd path s.fs = []

/-- The call counts up exactly the references it makes, and drops none: the lookups of the other
calls take none; a closed file has other descriptors; no process is made or exits, and no inode
is made. -/
def CallFits (s : Kern) (p : ProcId) (cwd : InodeId) : KernCall → Prop
  | .open path _ => s.OpenFits cwd path
  | .close fd => ∀ f, (s.files.procs p).fget fd = some f → (s.files.files f).ref ≠ 1
  | .chdir path => pathLoads AtEnd cwd path s.fs = []
  | .exec path _ _ => pathLoads AtEnd cwd path s.fs = []
  | .fork kstack pgt copied => (s.files.newproc kstack pgt).1 = none ∨ copied = false
  | .exit _ => False
  | .mkdir path => mknodLoads cwd path s.fs = []
  | .mknod path _ _ => mknodLoads cwd path s.fs = []

/-- The first lookup of a process always fits. -/
def Fits (s : Kern) : KernAct → Prop
  | .tail _ => True
  | .call p c => ∀ cwd, (s.files.procs p).cwd = some cwd → s.CallFits p cwd c

theorem after_some {α : Type} {f : FsM α} {k : α → Fs → Option Files} (step : s.after f k = some t) :
    ∃ a, f s.fs = .ok (a, t.fs) ∧ k a t.fs = some t.files := by
  unfold after at step
  split at step
  case h_1 => cases step
  case h_2 a fs run =>
    obtain ⟨files, eq, rfl⟩ := Option.map_eq_some_iff.1 step
    exact ⟨a, run, eq⟩

/-- A call that makes the references it counts. -/
theorem Owned.add (h : s.Owned) {loads : List InodeId} (taken : t.fs.irefs = s.fs.irefs + loadCount loads)
    (made : ∀ i, t.files.owners i = s.files.owners i + loads.count i) : t.Owned := by
  intro i
  rw [taken, Pi.add_apply, h i, made i, BitVec.ofNat_add, loadCount_apply]

/-- A call that counts and makes none. -/
theorem Owned.same (h : s.Owned) (taken : t.fs.irefs = s.fs.irefs) (made : ∀ i, t.files.owners i = s.files.owners i) : t.Owned := by
  intro i
  rw [taken, made i, h i]

/-- `schedule_tail` gives the process the directory its lookup takes a reference to. -/
theorem Owned.tail (h : s.Owned) (live : (s.files.procs p).live) (step : s.tail p = some t) : t.Owned := by
  unfold Kern.tail at step
  split at step
  case h_1 => exact Option.some.inj step ▸ h
  case h_2 none =>
    obtain ⟨found, run, made⟩ := after_some step
    obtain ⟨ino, rfl, eq⟩ := Option.map_eq_some_iff.1 made
    have taken := irefs_ext2Path2inode s.fs 0 [SLASH] _ _ run
    rw [pathLoads_root run] at taken
    refine h.add taken fun i => ?_
    rw [← eq, Kern.setCwd, s.files.owners_cwd p live none, List.count_singleton]
    simp

theorem Owned.open (h : s.Owned) {path : List Chr} {flags : BitVec 32} (fits : s.OpenFits cwd path)
    (step : s.open p cwd path flags = some t) : t.Owned := by
  obtain ⟨found, run, made⟩ := after_some step
  have taken := irefs_ext2Path2inode s.fs cwd path _ _ run
  have last := path2inode_last s.fs cwd path _ _ run
  have owners := fun i => s.files.owners_open p (found.map fun i => (i, (t.fs.itable i).mode)) flags i
  rw [Option.some.inj made] at owners
  simp only [Option.map_map] at owners
  have finds : s.finds cwd path = found.isSome := by
    unfold finds
    rw [run]
    cases found <;> rfl
  unfold OpenFits at fits
  rw [finds] at fits
  split at fits
  case isTrue both =>
    obtain ⟨ino, rfl⟩ := Option.isSome_iff_exists.1 both.1
    obtain ⟨j, one⟩ := List.length_eq_one_iff.1 fits
    obtain rfl : ino = j := by simpa [one] using last
    rw [one] at taken
    refine h.add taken fun i => ?_
    rw [owners i]
    simp [both.2, List.count_singleton]
  case isFalse other =>
    rw [fits] at taken
    refine h.add taken fun i => ?_
    rw [owners i, if_neg]
    · rfl
    · rintro ⟨slot, same⟩
      exact other ⟨by cases found <;> simp_all, slot⟩

theorem Owned.chdir (h : s.Owned) (here : (s.files.procs p).cwd = some cwd) {path : List Chr}
    (fits : pathLoads AtEnd cwd path s.fs = []) (step : s.chdir p cwd path = some t) : t.Owned := by
  obtain ⟨found, run, made⟩ := after_some step
  have taken := irefs_ext2Path2inode s.fs cwd path _ _ run
  have last := path2inode_last s.fs cwd path _ _ run
  rw [fits] at taken last
  have kept : t.fs.irefs = s.fs.irefs := taken.trans (add_zero _)
  cases found with
  | none => exact h.same kept fun i => by rw [← Option.some.inj made]
  | some ino =>
    obtain rfl : ino = cwd := by simpa using last
    refine h.same kept fun i => ?_
    rw [← Option.some.inj made]
    split
    · exact s.files.owners_setProc_same p (g := fun q => { q with cwd := some ino }) rfl here.symm i
    · rfl

theorem irefs_readAll (ino : InodeId) (reads : List (BitVec 64 × BitVec 64)) (u : Fs) :
    Takes Fs.irefs (readAll ino reads) u fun _ => 0 := by
  induction reads generalizing u with
  | nil => exact Takes.pure ()
  | cons r reads ih =>
    obtain ⟨off, size⟩ := r
    exact Takes.bind_free (irefs_quiet (quiet_ext2ReadInode u ino off size) fun _ _ quiet => quiet) fun _ v _ => ih v

theorem Owned.exec (h : s.Owned) {path : List Chr} {reads : List (BitVec 64 × BitVec 64)} {image : Option (PageNo × Nat)}
    (fits : pathLoads AtEnd cwd path s.fs = []) (step : s.exec p cwd path reads image = some t) : t.Owned := by
  obtain ⟨found, run, made⟩ := after_some step
  have kept : Takes Fs.irefs (execFile cwd path reads) s.fs fun _ => 0 := by
    have lookup := irefs_ext2Path2inode s.fs cwd path
    rw [fits] at lookup
    unfold execFile
    apply Takes.bind_free lookup
    rintro (_ | ino) u _
    · exact Takes.pure none
    · apply Takes.bind_free (irefs_readAll ino reads u)
      exact fun _ v _ => Takes.pure (some ino)
  refine h.same ((kept _ _ run).trans (add_zero _)) fun i => ?_
  rw [← Option.some.inj made, Files.owners_exec]

/-- A call to the file system that leaves the processes and the open files alone. -/
theorem Owned.fsCall (h : s.Owned) {α : Type} {f : FsM α} {loads : List InodeId} (takes : Takes Fs.irefs f s.fs fun _ => loadCount loads)
    (fits : loads = []) (step : s.after f (fun _ _ => some s.files) = some t) : t.Owned := by
  obtain ⟨r, run, made⟩ := after_some step
  subst fits
  refine h.same ((takes r _ run).trans (add_zero _)) fun i => ?_
  rw [← Option.some.inj made]

/-- **A step that fits** keeps the counts right. -/
theorem Owned.step (h : s.Owned) {a : KernAct} (fits : s.Fits a) (step : system.step s a = some t) : t.Owned := by
  cases a with
  | tail p =>
    simp only [system] at step
    split at step
    case isTrue live => exact h.tail live step
    case isFalse => cases step
  | call p c =>
    simp only [system] at step
    split at step
    case isFalse => cases step
    case isTrue =>
    obtain ⟨cwd, here, step⟩ := Option.bind_eq_some_iff.1 step
    have fits := fits cwd here
    cases c with
    | «open» path flags => exact h.open fits step
    | close fd =>
      cases step
      exact h.same rfl (s.files.owners_close p fd fits)
    | chdir path => exact h.chdir here fits step
    | exec path reads image => exact h.exec fits step
    | fork kstack pgt copied =>
      cases step
      exact h.same rfl (s.files.owners_fork p kstack pgt copied fits)
    | exit ret => exact fits.elim
    | mkdir path => exact h.fsCall (irefs_ext2Mknod s.fs cwd path _ 0) fits step
    | mknod path mode dev => exact h.fsCall (irefs_ext2Mknod s.fs cwd path mode dev) fits step

/-- At boot there are neither references nor counts. -/
theorem Booted.owned (h : s.Booted) : s.Owned := by
  intro i
  obtain ⟨disk, mount⟩ := h.mounted
  have table := ((Fs.boot_coherent disk).ext2Init_ok mount).2
  have none : s.files.owners i = 0 := by
    have dead : ∀ q, (s.files.procs q).stays i = 0 := by
      intro q
      rcases eq_or_ne q initproc with rfl | ne
      · simp [Proc.stays, h.cwd]
      · rw [h.files.others q ne]
        rfl
    have closed : ∀ f, (s.files.files f).holds i = 0 := by
      intro f
      rw [h.files.files]
      rfl
    simp [Files.owners, dead, closed]
  rw [none, Fs.irefs, table]
  rfl

theorem Owned.via (h : system.Via Fits s) : s.Owned :=
  h.invariant (I := Owned) (fun _ start => Booted.owned start) fun _ _ _ owned fits step => owned.step fits step

theorem ite_le_one (P : Prop) [Decidable P] : (if P then 1 else 0) ≤ 1 := by
  split <;> omega

/-- Nothing is free in a table without a place. -/
theorem held_of_full {u : Fs} {inum : BitVec 32} (full : u.inodeSlot inum = none) (lt : i < NINODE) : (u.itable i).ref ≠ 0 := by
  unfold Fs.inodeSlot at full
  split at full
  case h_1 => cases full
  case h_2 =>
    intro free
    rw [Option.map_eq_none_iff, List.find?_eq_none] at full
    exact full i (List.mem_range.2 lt) (by simpa using free)

/-- A sum of zeros and ones over a table. -/
theorem sum_ones_le {n : Nat} {g : Fin n → Nat} (each : ∀ i, g i ≤ 1) : ∑ i, g i ≤ n := by
  have bound := Finset.sum_le_card_nsmul Finset.univ g 1 fun i _ => each i
  rwa [Finset.card_fin, smul_eq_mul, mul_one] at bound

theorem owners_le (s : Files) (i : InodeId) : s.owners i ≤ NFILE + NPROC := by
  have files := sum_ones_le (g := fun f => (s.files f).holds i) fun f => ite_le_one _
  have procs := sum_ones_le (g := fun p => (s.procs p).stays i) fun p => ite_le_one _
  exact Nat.add_le_add files procs

theorem Owned.toNat (h : s.Owned) (i : InodeId) : (s.fs.irefs i).toNat = s.files.owners i := by
  have few : NFILE + NPROC < 2 ^ 32 := by decide
  rw [h i, BitVec.toNat_ofNat, Nat.mod_eq_of_lt ((owners_le s.files i).trans_lt few)]

/-- **References to inodes.** While every step fits, each `ref` is the number of open files and
working directories that refer to the inode, so the table is full only of inodes in use. A lookup
that finds it full returns `NULL` exactly when the inode without a place is the last of its path. -/
theorem refs_count_owners (s : Kern) :
    (system.Via Fits s → (∀ i, (s.fs.irefs i).toNat = s.files.owners i) ∧
      ∀ inum, s.fs.inodeSlot inum = none → ∀ i < NINODE, 0 < s.files.owners i) ∧
    ∀ cwd path rest, pathOut cwd path s.fs = some rest →
      ((∃ t, ext2Path2inode cwd path s.fs = .ok (none, t)) ↔ NullReturned rest) := by
  refine ⟨fun via => ?_, fun cwd path rest out => path2inode_out out⟩
  have owned := (Owned.via via).toNat
  refine ⟨owned, fun inum full i lt => ?_⟩
  rw [← owned i]
  exact Nat.pos_of_ne_zero fun zero => held_of_full full lt (BitVec.eq_of_toNat_eq zero)

/-- The machine at boot, with the small volume mounted that has a root directory. -/
def treeKern : Kern where
  files := Files.boot
  fs := { Fs.boot treeVolume with sb := superblockOf (treeVolume 1#32) (treeVolume 2#32) }

theorem treeKern_booted : treeKern.Booted where
  files := Files.boot_booted
  cwd := rfl
  mounted := ⟨treeVolume, Fs.boot_mounts (by decide +kernel)⟩

/-- A table full of other inodes. -/
def fullTable : Fs := { treeKern.fs with itable := fun _ => { Inode.zero with inum := 9#32, ref := 1 } }

/-- `schedule_tail` there gives the first process the root directory, and `open("/")` fits. With
every entry in use, the lookup of `/` returns `NULL`. -/
theorem refs_count_owners_root : (∃ s, system.Via Fits s ∧ s.fs.irefs 0 = 2 ∧ s.files.owners 0 = 2) ∧
    ∃ t, ext2Path2inode 0 [SLASH] fullTable = .ok (none, t) := by
  have fits : ((system.step treeKern (.tail initproc)).any fun u => (u.files.procs initproc).cwd = some 0 ∧ u.finds 0 [SLASH] ∧
      u.files.files.allocFile.isSome ∧ pathLoads AtEnd 0 [SLASH] u.fs = [0] ∧
      (system.step u (.call initproc (.open [SLASH] O_RDONLY))).map (fun t => t.fs.irefs 0) = some 2) = true := by decide +kernel
  obtain ⟨u, first, here⟩ := (Option.any_eq_true _ _).1 fits
  obtain ⟨cwd, finds, slot, one, opens⟩ := of_decide_eq_true here
  obtain ⟨s, second, two⟩ := Option.map_eq_some_iff.1 opens
  have tail : system.Via Fits u := .step (.init treeKern_booted) (show Fits treeKern (.tail initproc) from trivial) first
  have via : system.Via Fits s := by
    refine .step tail (fun c same => ?_) second
    rw [cwd] at same
    cases same
    show u.OpenFits 0 [SLASH]
    unfold OpenFits
    rw [if_pos ⟨finds, slot⟩, one]
    rfl
  have full : pathOut 0 [SLASH] fullTable = some [SLASH] := by decide +kernel
  have ending : NullReturned [SLASH] := by
    unfold NullReturned
    rw [skippath_end (by simp)]
    exact ⟨rfl, by simp [NameBuf.put, NameBuf.putAt]⟩
  refine ⟨⟨s, via, two, ?_⟩, ((refs_count_owners { treeKern with fs := fullTable }).2 0 [SLASH] [SLASH] full).2 ending⟩
  rw [← ((refs_count_owners s).1 via).1 0, two]
  rfl

/-- Behind `open("/f")` the root counts the reference of its lookup, and no one has it. -/
theorem lookup_keeps_reference : ∃ s, system.Reach s ∧ s.fs.irefs 0 = 2 ∧ s.files.owners 0 = 1 ∧
    ¬ ∀ s, system.Reach s → ∀ i, (s.fs.irefs i).toNat = s.files.owners i := by
  have ran : (system.run treeKern [.tail initproc, .call initproc (.open [SLASH, F] O_RDONLY)]).map
      (fun t => (t.fs.irefs 0, t.files.owners 0)) = some (2, 1) := by decide +kernel
  obtain ⟨s, run, eq⟩ := Option.map_eq_some_iff.1 ran
  obtain ⟨refs, owners⟩ := Prod.mk.inj eq
  have reach : system.Reach s := (System.Via.init treeKern_booted).run run
  refine ⟨s, reach, refs, owners, fun claim => ?_⟩
  have same := claim s reach 0
  rw [refs, owners] at same
  cases same

end Kern

end Aarch64Os.Kernel
