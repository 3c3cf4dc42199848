import Mathlib
import Aarch64Os.Kernel.Proc

/-!
# Open files and descriptors (`kernel/file.c`, and the descriptor side of `kernel/proc.c`)

A slot of `ftable` is shared by every descriptor that points at it: `dup` inside one
process, `fork` and `clone` across processes. `ref` is meant to count them. Each call
is one step here; what `path2inode`, `kalloc` and `cp_userspace` answer is a
parameter of the call, since descriptors do not depend on how they come to it.
-/

namespace Aarch64Os.Kernel
set_option autoImplicit false

/-- `struct file`. -/
structure File where
  ref : Nat
  ino : Option InodeId
  off : Nat
  readable : Bool
  writable : Bool
  deriving DecidableEq

/-- A slot after `memset(f, 0, sizeof(*f))`. -/
def File.zero : File := { ref := 0, ino := none, off := 0, readable := false, writable := false }

/-- `ftable.file`. -/
abbrev FileTable := FileId → File

/-- Change one slot. -/
def FileTable.set (files : FileTable) (f : FileId) (g : File → File) : FileTable :=
  Function.update files f (g (files f))

@[simp] theorem FileTable.set_self (files : FileTable) (f : FileId) (g : File → File) :
    files.set f g f = g (files f) := Function.update_self ..

theorem FileTable.set_ne (files : FileTable) {f h : FileId} (g : File → File) (ne : h ≠ f) :
    files.set f g h = files h := Function.update_of_ne ne ..

@[simp] theorem FileTable.set_set (files : FileTable) (f : FileId) (g h : File → File) :
    (files.set f g).set f h = files.set f fun file => h (g file) := by
  simp [FileTable.set]

/-- `alloc_file`: the first slot nobody refers to, now referred to once. -/
def FileTable.allocFile (files : FileTable) : Option (FileId × FileTable) :=
  ((List.finRange NFILE).find? fun f => (files f).ref = 0).map fun f =>
    (f, files.set f fun file => { file with ref := 1 })

/-- `dup_file`. -/
def FileTable.dupFile (files : FileTable) (f : FileId) : FileTable :=
  files.set f fun file => { file with ref := file.ref + 1 }

/-- `fget`: the bounds check reads the `int` as a `u32`. -/
def Proc.fget (p : Proc) (fd : BitVec 32) : Option FileId :=
  if h : fd.toNat < NOFILE then p.ofile ⟨fd.toNat, h⟩ else none

/-- `allocfd`, and the same loop in `open`: the lowest free descriptor. -/
def Proc.allocfd (p : Proc) : Option Fd := (List.finRange NOFILE).find? fun fd => p.ofile fd = none

/-- `p->ofile[fd] = f`. -/
def Proc.setFd (p : Proc) (fd : Fd) (f : Option FileId) : Proc := { p with ofile := Function.update p.ofile fd f }

/-- `O_ACCMODE`. -/
def O_ACCMODE : BitVec 32 := 0o3#32
/-- `O_RDONLY`. -/
def O_RDONLY : BitVec 32 := 0o0#32
/-- `O_WRONLY`. -/
def O_WRONLY : BitVec 32 := 0o1#32
/-- `O_RDWR`. -/
def O_RDWR : BitVec 32 := 0o2#32
/-- `O_DIRECTORY`. -/
def O_DIRECTORY : BitVec 32 := 0o40000#32

/-- `S_IFMT`. -/
def S_IFMT : BitVec 16 := 0xf000#16
/-- `S_IFDIR`. -/
def S_IFDIR : BitVec 16 := 0x4000#16

/-- `S_ISDIR`. -/
def S_ISDIR (mode : BitVec 16) : Bool := mode &&& S_IFMT = S_IFDIR

/-- The `switch` of `open`: a mode it does not name sets neither flag, and no case clears one. -/
def File.access (file : File) (flags : BitVec 32) : File :=
  if flags &&& O_ACCMODE = O_RDONLY then { file with readable := true }
  else if flags &&& O_ACCMODE = O_WRONLY then { file with writable := true }
  else if flags &&& O_ACCMODE = O_RDWR then { file with readable := true, writable := true }
  else file

/-- The part of the kernel the descriptor calls work on. -/
structure Files where
  procs : Procs
  pid : Int
  files : FileTable

/-- `open`, given what `path2inode` finds and the mode of that inode. The failing exits
after `alloc_file` leave its slot as it is. -/
def Files.open (s : Files) (p : ProcId) (found : Option (InodeId × BitVec 16)) (flags : BitVec 32) : Int × Files :=
  match found with
  | none => (-1, s)
  | some (ino, mode) =>
    match s.files.allocFile with
    | none => (-1, s)
    | some (f, files) =>
      let s := { s with files := files.set f fun file => ({ file with ino := some ino, off := 0 }).access flags }
      if flags &&& O_DIRECTORY ≠ 0 ∧ S_ISDIR mode = false then (-1, s)
      else match (s.procs p).allocfd with
        | none => (-1, s)
        | some fd => ((fd : Nat), { s with procs := s.procs.set p fun q => q.setFd fd (some f) })

namespace Files

/-- `close`. -/
def close (s : Files) (p : ProcId) (fd : BitVec 32) : Int × Files :=
  match (s.procs p).fget fd with
  | none => (-1, s)
  | some f =>
    if (s.files f).ref = 0 then (-1, s)
    else
      let files := s.files.set f fun file => { file with ref := file.ref - 1 }
      if (files f).ref > 0 then (0, { s with files := files })
      else
        (0, { s with
          procs := s.procs.set p fun q => if h : fd.toNat < NOFILE then q.setFd ⟨fd.toNat, h⟩ none else q
          files := files.set f fun _ => File.zero })

/-- `dup`. -/
def dup (s : Files) (p : ProcId) (fd : BitVec 32) : Int × Files :=
  match (s.procs p).fget fd with
  | none => (-1, s)
  | some f =>
    match (s.procs p).allocfd with
    | none => (-1, s)
    | some newfd =>
      ((newfd : Nat), { s with
        procs := s.procs.set p fun q => q.setFd newfd (some f)
        files := s.files.dupFile f })

/-- `newproc`, with the results of its two `kalloc` calls. -/
def newproc (s : Files) (kstack pgt : Option PageNo) : Option ProcId × Files :=
  match s.procs.claim with
  | none => (none, s)
  | some (p, procs) =>
    let filled := procs.fill p s.pid kstack pgt
    (filled.1, { s with procs := filled.2, pid := s.pid + 1 })

/-- One round of the copying loop of `fork` and `clone`: `if(p->ofile[fd]) new->ofile[fd] = dup_file(p->ofile[fd])`. -/
def inheritFd (p new : ProcId) (s : Files) (fd : Fd) : Files :=
  match (s.procs p).ofile fd with
  | none => s
  | some f =>
    { s with
      procs := s.procs.set new fun q => q.setFd fd (some f)
      files := s.files.dupFile f }

/-- The copying loop of `fork` and `clone`. -/
def inherit (s : Files) (p new : ProcId) : Files := (List.finRange NOFILE).foldl (inheritFd p new) s

/-- `fork`; `copied` is whether `cp_userspace` succeeds. -/
def fork (s : Files) (p : ProcId) (kstack pgt : Option PageNo) (copied : Bool) : Int × Files :=
  match s.newproc kstack pgt with
  | (none, s) => (-1, s)
  | (some new, s) =>
    if copied = false then (-1, { s with procs := s.procs.freeproc new })
    else
      let s := { s with procs := s.procs.set new fun q => { q with size := (s.procs p).size, cwd := (s.procs p).cwd } }
      let s := s.inherit p new
      let s := { s with procs := s.procs.set new fun q => { q with state := .RUNNABLE, parent := some p } }
      ((s.procs new).pid, s)

/-- `clone`: the page table of the caller takes the place of the new one. -/
def clone (s : Files) (p : ProcId) (kstack pgt : Option PageNo) : Int × Files :=
  match s.newproc kstack pgt with
  | (none, s) => (-1, s)
  | (some new, s) =>
    let s := { s with procs := s.procs.set new fun q =>
      { q with pgt := (s.procs p).pgt, size := (s.procs p).size, cwd := (s.procs p).cwd } }
    let s := s.inherit p new
    let s := { s with procs := s.procs.set new fun q =>
      { q with state := .RUNNABLE, parent := some p, th := true } }
    ((s.procs new).pid, s)

/-- `exec`, given the page table and size it has built, if it has. -/
def exec (s : Files) (p : ProcId) (image : Option (PageNo × Nat)) : Files :=
  match image with
  | none => s
  | some (pgt, size) => { s with procs := s.procs.set p fun q => { q with pgt := some pgt, size := size } }

/-- The closing loop of `exitproc`. -/
def closeAll (s : Files) (p : ProcId) : Files :=
  (List.finRange NOFILE).foldl (fun s (fd : Fd) => (s.close p (BitVec.ofNat 32 fd)).2) s

/-- `exitproc`, which panics in the initial process. -/
def exitproc (s : Files) (p : ProcId) (ret : Int) : Option Files :=
  if (s.procs p).pid = 0 then none
  else
    let s := s.closeAll p
    let procs := s.procs.set p fun q => { q with ret := ret }
    some { s with procs := procs.exitproc p }

/-- The round of `wait` that finds a dead child. -/
def wait (s : Files) (p : ProcId) : Option Files :=
  (s.procs.find fun q => q.parent = some p ∧ q.state = .ZOMBIE).map fun child =>
    { s with procs := s.procs.freeproc child }

end Files

end Aarch64Os.Kernel
