import Mathlib
import Aarch64Os.Kernel.File
import Aarch64Os.Kernel.Ext2.Mknod

/-!
# Reading and writing an open file (`kernel/file.c`, `kernel/cdev.c`)

`read_file` and `write_file` look at the type of the inode behind an open file: regular files
and directories go to the file system, character devices to the driver their number selects.
What a driver does is a parameter, a function on a device state of its own.
-/

namespace Aarch64Os.Kernel
set_option autoImplicit false

/-- `NCDEV`. -/
abbrev NCDEV : Nat := 32

/-- `S_IFREG`. -/
def S_IFREG : BitVec 16 := 0x8000#16

/-- A kernel function over the file system and the devices. -/
abbrev IoM (δ : Type) := StateT (Fs × δ) (Except Fault)

section Io
variable {δ α φ : Type}

/-- Work on the file system. -/
def IoM.ofFs (x : FsM α) : IoM δ α := fun s => (x s.1).map fun r => (r.1, (r.2, s.2))

/-- Work on a device. -/
def IoM.ofDev (x : StateT δ (Except Fault) α) : IoM δ α := fun s => (x s.2).map fun r => (r.1, (s.1, r.2))

/-- `struct cdevsw`; a pointer that is null is `none`. -/
structure Cdevsw (δ : Type) where
  read : Option (File → BitVec 64 → StateT δ (Except Fault) (Int × List (BitVec 8)))
  write : Option (File → (Nat → BitVec 8) → BitVec 64 → StateT δ (Except Fault) Int)

/-- An entry of `cdevsw` before anything is registered. -/
def Cdevsw.null : Cdevsw δ := { read := none, write := none }

/-- `register_cdev`. -/
def registerCdev (cdevsw : Fin NCDEV → Cdevsw δ) (major : Fin NCDEV) (cdev : Cdevsw δ) : Fin NCDEV → Cdevsw δ :=
  Function.update cdevsw major cdev

/-- What carries out a read or a write: the file system, or a function of a driver. -/
inductive Server (φ : Type)
  | inode
  | driver (fn : φ)

/-- The `switch` of `read_file` and `write_file`. Past the end of `cdevsw`, and for a null
function, the call is undefined. -/
def serverOf (fn : Fin NCDEV → Option φ) (ino : Inode) : Except Fault (Server φ) :=
  if ino.mode &&& S_IFMT = S_IFREG ∨ ino.mode &&& S_IFMT = S_IFDIR then .ok .inode
  else if ino.mode &&& S_IFMT = S_IFCHR then
    if h : ino.major.toNat < NCDEV then
      match fn ⟨ino.major.toNat, h⟩ with
      | some fn => .ok (.driver fn)
      | none => .error .undefined
    else .error .undefined
  else .error (.panic "unknown ftype")

/-- `f->off += n`. -/
def File.advance (file : File) (n : Int) : File := { file with off := (file.off + n.toNat) % 2 ^ 64 }

/-- `read_file`: its result and the bytes it has stored, and the file behind it. -/
def readFile (cdevsw : Fin NCDEV → Cdevsw δ) (file : File) (sz : BitVec 64) : IoM δ ((Int × List (BitVec 8)) × File) :=
  if file.readable = false then pure ((-1, []), file)
  else
    match file.ino with
    | none => pure ((-1, []), file)
    | some ino => do
      let s ← get
      let server ← liftM (serverOf (fun m => (cdevsw m).read) (s.1.itable ino))
      match server with
      | .inode =>
        let (n, bytes) ← IoM.ofFs (ext2ReadInode ino (BitVec.ofNat 64 file.off) sz)
        if n < 0 then pure ((-1, bytes), file) else pure ((n, bytes), file.advance n)
      | .driver read =>
        let r ← IoM.ofDev (read file sz)
        pure (r, file)

/-- `write_file`. -/
def writeFile (cdevsw : Fin NCDEV → Cdevsw δ) (file : File) (buf : Nat → BitVec 8) (sz : BitVec 64) : IoM δ (Int × File) :=
  if file.writable = false then pure (-1, file)
  else
    match file.ino with
    | none => pure (-1, file)
    | some ino => do
      let s ← get
      let server ← liftM (serverOf (fun m => (cdevsw m).write) (s.1.itable ino))
      match server with
      | .inode =>
        let n ← IoM.ofFs (ext2WInode ino buf (BitVec.ofNat 64 file.off) sz)
        if n < 0 then pure (-1, file) else pure (n, file.advance n)
      | .driver write =>
        let n ← IoM.ofDev (write file buf sz)
        pure (n, file)

variable {cdevsw : Fin NCDEV → Cdevsw δ} {file : File} {ino : InodeId} {s : Fs} {d : δ}

/-- `read_file` of a regular file or a directory. -/
theorem readFile_inode (readable : file.readable = true) (here : file.ino = some ino)
    (type : (s.itable ino).mode &&& S_IFMT = S_IFREG ∨ (s.itable ino).mode &&& S_IFMT = S_IFDIR) (sz : BitVec 64) :
    readFile cdevsw file sz (s, d) =
      (ext2ReadInode ino (BitVec.ofNat 64 file.off) sz s).map fun r =>
        (if r.1.1 < 0 then ((-1, r.1.2), file) else (r.1, file.advance r.1.1), (r.2, d)) := by
  have server : serverOf (fun m => (cdevsw m).read) (s.itable ino) = .ok .inode := if_pos type
  unfold readFile
  rw [if_neg (by simp [readable]), here]
  simp only [bind, StateT.bind, get, getThe, MonadStateOf.get, StateT.get, pure, Except.pure, Except.bind, server, liftM,
    monadLift, MonadLift.monadLift, StateT.lift, IoM.ofFs]
  cases ext2ReadInode ino (BitVec.ofNat 64 file.off) sz s with
  | error e => rfl
  | ok r =>
    obtain ⟨⟨n, bytes⟩, t⟩ := r
    simp only [Except.map]
    split <;> rfl

end Io

end Aarch64Os.Kernel
