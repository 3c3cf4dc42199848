import Mathlib
import Aarch64Os.Base.Bytes
import Aarch64Os.Kernel.Proc

/-!
# The state of the file system (`include/fs.h`, `include/buf.h`)

One thread of the kernel working on the file system: the disk, the buffer cache, the
in-memory inodes and the superblock. A disk request is one step here, so a function is a
state transformer that may stop the kernel. The disk answers every request; a device
that reports an error is outside this model.
-/

namespace Aarch64Os.Kernel
set_option autoImplicit false

/-- `sizeof(b->data)`. -/
abbrev BUFSIZE : Nat := 1024

/-- `NBUF`. -/
abbrev NBUF : Nat := 32

instance : NeZero BUFSIZE := ⟨by decide⟩
instance : NeZero NBUF := ⟨by decide⟩
instance neZeroFifteen : NeZero 15 := ⟨by decide⟩

/-- A direct slot of `ino->block[15]`. -/
theorem direct_slot {i : Nat} (lt : i < 12) : i < 15 := by omega

/-- The data of a buffer, and of a disk block. -/
abbrev Block := Fin BUFSIZE → BitVec 8

/-- A `struct buf *`. -/
abbrev BufId := Fin NBUF

/-- `struct buf`; nothing reads its `dirty` flag. -/
structure Buf where
  data : Block
  bno : BitVec 32
  ref : Nat
  valid : Bool

/-- A buffer after `memset(b, 0, sizeof(*b))`. -/
def Buf.zero : Buf := { data := fun _ => 0, bno := 0, ref := 0, valid := false }

@[simp] theorem Buf.zero_ref : Buf.zero.ref = 0 := rfl

/-- `bcache.buf`. -/
abbrev Bcache := BufId → Buf

/-- `struct superblock`. -/
structure Superblock where
  inodes_count : BitVec 32
  blocks_count : BitVec 32
  first_data_block : BitVec 32
  blocks_per_group : BitVec 32
  inodes_per_group : BitVec 32
  mtime : BitVec 32
  wtime : BitVec 32
  first_ino : BitVec 32
  inode_size : BitVec 16
  bsize : BitVec 32
  block_bitmap : BitVec 32
  inode_bitmap : BitVec 32
  inode_table : BitVec 32

/-- `struct inode`. -/
structure Inode where
  mode : BitVec 16
  size : BitVec 32
  atime : BitVec 32
  ctime : BitVec 32
  mtime : BitVec 32
  dtime : BitVec 32
  links_count : BitVec 16
  blocks : BitVec 32
  block : Fin 15 → BitVec 32
  inum : BitVec 32
  major : BitVec 32
  minor : BitVec 32
  ref : BitVec 32

/-- An inode after `memset(ino, 0, sizeof(*ino))`. -/
def Inode.zero : Inode where
  mode := 0
  size := 0
  atime := 0
  ctime := 0
  mtime := 0
  dtime := 0
  links_count := 0
  blocks := 0
  block := fun _ => 0
  inum := 0
  major := 0
  minor := 0
  ref := 0

/-- How a kernel function fails to return. -/
inductive Fault
  /-- `panic`. -/
  | panic (msg : String)
  /-- An access outside the object it is meant for, or another operation C leaves undefined. -/
  | undefined
  /-- A loop that never ends. -/
  | hang
  deriving DecidableEq

/-- The disk and what the kernel keeps in memory of it. -/
structure Fs where
  disk : BitVec 32 → Block
  bcache : Bcache
  sb : Superblock
  itable : InodeId → Inode

/-- A kernel function over the file system. -/
abbrev FsM := StateT Fs (Except Fault)

namespace FsM
variable {α β : Type} {s t : Fs}

theorem bind_run (x : FsM α) (f : α → FsM β) : (x >>= f) s = (x s).bind fun p => f p.1 p.2 := rfl

/-- A sequence returns when both its parts do. -/
theorem bind_ok {x : FsM α} {f : α → FsM β} {b : β} :
    (x >>= f) s = .ok (b, t) ↔ ∃ a u, x s = .ok (a, u) ∧ f a u = .ok (b, t) := by
  rw [bind_run]
  cases x s with
  | error e => simp [Except.bind]
  | ok p => obtain ⟨a, u⟩ := p; simp [Except.bind]

/-- The first part is known. -/
theorem bind_of_ok {x : FsM α} {f : α → FsM β} {a : α} {u : Fs} (h : x s = .ok (a, u)) : (x >>= f) s = f a u := by
  rw [bind_run, h]
  rfl

@[simp] theorem pure_run (a : α) : (pure a : FsM α) s = .ok (a, s) := rfl

@[simp] theorem get_run : (get : FsM Fs) s = .ok (s, s) := rfl

@[simp] theorem set_run (u : Fs) : (set u : FsM Unit) s = .ok ((), u) := rfl

@[simp] theorem modify_run (f : Fs → Fs) : (modify f : FsM Unit) s = .ok ((), f s) := rfl

theorem lift_ok {x : Except Fault α} {a : α} (h : x = .ok a) : (liftM x : FsM α) s = .ok (a, s) := by
  rw [h]
  rfl

theorem lift_error {x : Except Fault α} {e : Fault} (h : x = .error e) : (liftM x : FsM α) s = .error e := by
  rw [h]
  rfl

@[simp] theorem throw_run (e : Fault) : (throw e : FsM α) s = .error e := rfl

end FsM

end Aarch64Os.Kernel
