import Mathlib
import Aarch64Os.Kernel.Ext2.Path

/-!
# Making inodes (`kernel/ext2.c`)

`mkdir` and `mknod` look for the parent of their path, take a new inode and link it into the
parent under the name that is left in the buffer. A new entry goes behind the last one of a
block. Addresses are offsets in the block: `data` is the first member of `struct buf`, so
rounding them is rounding addresses.
-/

namespace Aarch64Os.Kernel
set_option autoImplicit false
open Base

/-- The `struct dirent` that `make_dirent` builds. -/
structure NewDirent where
  inode : BitVec 32
  rec_len : BitVec 16
  name_len : BitVec 8
  file_type : BitVec 8
  name : List (BitVec 8)

/-- `roundup_4byte`. -/
def roundup4 (n : Nat) : Nat := (n + 3) / 4 * 4

/-- `make_dirent`; `name_len` is a byte, and one more is copied. -/
def makeDirent (inode : BitVec 32) (name : List (BitVec 8)) (file_type : BitVec 8) : NewDirent where
  inode := inode
  rec_len := BitVec.ofNat 16 (roundup4 (8 + name.length))
  name_len := BitVec.ofNat 8 name.length
  file_type := file_type
  name := name.take (name.length % 256 + 1)

/-- The walk of `ext2_dirlink` over the entries of a block: the first with `rec_len` 0, or the
last one. -/
def lastDirent (bsize : Nat) (blk : Block) : Nat → Nat → Nat → Except Fault (Bool × Nat)
  | 0, _, _ => .error .hang
  | left + 1, bpos, d =>
    if bpos < bsize then
      if bpos + 8 ≤ BUFSIZE then
        if direntRecLen blk bpos = 0 then .ok (true, bpos)
        else lastDirent bsize blk left (bpos + direntRecLen blk bpos) bpos
      else .error .undefined
    else .ok (false, d)

/-- `strlen` of the string at `off`. -/
def strlenAt (blk : Block) (off : Nat) : Except Fault Nat :=
  match (List.range (BUFSIZE - off)).find? fun k => byte blk (off + k) = 0 with
  | some k => .ok k
  | none => .error .undefined

/-- The stores to an entry at `off`, the name with its NUL last. -/
def putDirent (blk : Block) (off : Nat) (de : NewDirent) (rec_len : BitVec 16) : Except Fault Block :=
  if off + 8 + de.name_len.toNat + 1 ≤ BUFSIZE then
    let blk := putLe blk off de.inode
    let blk := putLe blk (off + 4) rec_len
    let blk := putLe blk (off + 6) de.name_len
    let blk := putLe blk (off + 7) de.file_type
    .ok (splice blk (off + 8) (fun k => de.name.getD k 0) (de.name_len.toNat + 1))
  else .error .undefined

/-- The case `empty_block`: the entry at `d` becomes the block's last. -/
def linkEmpty (bsize : Nat) (blk : Block) (d : Nat) (de : NewDirent) : Except Fault Block :=
  putDirent blk d de (BitVec.ofNat 16 bsize)

/-- The case `found`: the last entry is cut to its name, and the new one goes behind it. -/
def linkBehind (bsize : Nat) (blk : Block) (d len : Nat) (de : NewDirent) : Except Fault Block :=
  let debegin := roundup4 (d + 8 + len)
  putDirent (putLe blk (d + 4) (BitVec.ofNat 16 (debegin - d))) debegin de (BitVec.ofNat 16 (bsize - debegin))

/-- Write a changed block and let go of its buffer. -/
def writeBlock (b : BufId) (data : Except Fault Block) : FsM Int := do
  let data ← liftM data
  setBufData b data
  bioWrite b
  bioFree b
  pure 0

/-- The loop of `ext2_dirlink` from block `i` on. A block without room stays held. -/
def linkBlocks (pdir : InodeId) (de : NewDirent) : Nat → Nat → FsM (Option Int)
  | 0, _ => pure none
  | left + 1, i => do
    let s ← get
    let bsize := s.sb.bsize.toNat
    let b ← ext2InodeBlock pdir i
    let data ← bufData b
    let (empty, d) ← liftM (lastDirent bsize data (bsize + 1) 0 0)
    if empty then
      let r ← writeBlock b (linkEmpty bsize data d de)
      pure (some r)
    else
      let len ← liftM (strlenAt data (d + 8))
      if (BitVec.ofNat 64 bsize - BitVec.ofNat 64 (d + 8 + len)).toNat > de.rec_len.toNat then
        let r ← writeBlock b (linkBehind bsize data d len de)
        pure (some r)
      else linkBlocks pdir de left (i + 1)

/-- `ext2_append_inode_block`. -/
def ext2AppendInodeBlock (ino : InodeId) (blockn : Int) : FsM Int := do
  let s ← get
  match (s.itable ino).freeSlot with
  | none => pure (-1)
  | some n =>
    modify fun s => s.setInode ino fun x =>
      { x with block := Function.update x.block (Fin.ofNat 15 n) (BitVec.ofInt 32 blockn), blocks := x.blocks + s.sb.bsize / 512#32 }
    inodeSync ino
    pure 0

/-- `ext2_dirlink`. -/
def ext2Dirlink (pdir : InodeId) (de : NewDirent) : FsM Int := do
  let found ← ext2SearchDir pdir (de.name ++ [0])
  if found > 0 then pure (-1)
  else
    let s ← get
    let linked ← linkBlocks pdir de (s.itable pdir).nblock 0
    match linked with
    | some r => pure r
    | none =>
      let s ← get
      if (s.itable pdir).nblock = 0 then
        let bn ← ext2AllocBlock
        let _ ← ext2AppendInodeBlock pdir bn
        let b ← bioRead (BitVec.ofInt 32 bn)
        let data ← bufData b
        writeBlock b (linkEmpty s.sb.bsize.toNat data 0 de)
      else pure (-1)

/-- `ext2_alloc_inode`. -/
def ext2AllocInode : FsM (Option InodeId) := do
  let inum ← ext2AllocInum
  if inum < 0 then pure none else findInode (BitVec.ofInt 32 inum)

/-- `S_IFCHR`. -/
def S_IFCHR : BitVec 16 := 0x2000#16

/-- `imode2dtype`, by `itype_dtype_table`, which has no entry 15. -/
def imode2dtype (mode : BitVec 16) : Except Fault (BitVec 8) :=
  match ((mode &&& S_IFMT) >>> 12).toNat with
  | 1 => .ok 5
  | 2 => .ok 3
  | 4 => .ok 2
  | 6 => .ok 4
  | 8 => .ok 1
  | 10 => .ok 7
  | 12 => .ok 6
  | 15 => .error .undefined
  | _ => .ok 0

/-- The entries `.` and `..` of a new directory. -/
def linkDots (ino dir : InodeId) : FsM Bool := do
  modify fun s => s.setInode dir fun x => { x with links_count := x.links_count + 1 }
  let s ← get
  let r ← ext2Dirlink ino (makeDirent (s.itable ino).inum [46#8] 2#8)
  if r < 0 then pure false
  else
    let s ← get
    let r ← ext2Dirlink ino (makeDirent (s.itable dir).inum [46#8, 46#8] 2#8)
    if r < 0 then pure false
    else
      modify fun s => s.setInode ino fun x => { x with size := s.sb.bsize }
      pure true

/-- `ext2_new_inode`. -/
def ext2NewInode (name : List (BitVec 8)) (dir : InodeId) (mode dev : BitVec 32) : FsM (Option InodeId) := do
  let ino ← ext2AllocInode
  match ino with
  | none => pure none
  | some ino =>
    modify fun s => s.setInode ino fun x => { x with mode := mode.setWidth 16, major := dev, links_count := 1 }
    let dots ← if mode &&& S_IFMT.setWidth 32 = S_IFDIR.setWidth 32 then linkDots ino dir
      else do
        if mode &&& S_IFMT.setWidth 32 = S_IFCHR.setWidth 32 then
          modify fun s => s.setInode ino fun x => { x with size := 0 }
        pure true
    if !dots then pure none
    else
      let s ← get
      let file_type ← liftM (imode2dtype (s.itable ino).mode)
      let r ← ext2Dirlink dir (makeDirent (s.itable ino).inum name file_type)
      if r < 0 then pure none
      else
        inodeSync ino
        inodeSync dir
        pure (some ino)

/-- The fields `ext2_new_inode` sets first. -/
def Inode.asNew (x : Inode) (mode dev : BitVec 32) : Inode := { x with mode := mode.setWidth 16, major := dev, links_count := 1 }

/-- `ext2_new_inode` between these fields and the link: what the file type asks for. -/
def newByType (ino dir : InodeId) (mode : BitVec 32) : FsM Bool :=
  if mode &&& S_IFMT.setWidth 32 = S_IFDIR.setWidth 32 then linkDots ino dir
  else do
    modify fun s =>
      if mode &&& S_IFMT.setWidth 32 = S_IFCHR.setWidth 32 then s.setInode ino fun x => { x with size := 0 } else s
    pure true

/-- `ext2_new_inode` from the link on. -/
def linkNew (name : List (BitVec 8)) (ino dir : InodeId) : FsM (Option InodeId) := do
  let s ← get
  let file_type ← liftM (imode2dtype (s.itable ino).mode)
  let r ← ext2Dirlink dir (makeDirent (s.itable ino).inum name file_type)
  if r < 0 then pure none
  else
    inodeSync ino
    inodeSync dir
    pure (some ino)

/-- The parts of `ext2_new_inode`. -/
theorem ext2NewInode_eq (name : List (BitVec 8)) (dir : InodeId) (mode dev : BitVec 32) :
    ext2NewInode name dir mode dev = (do
      let ino ← ext2AllocInode
      match ino with
      | none => pure none
      | some ino =>
        modify fun s => s.setInode ino fun x => x.asNew mode dev
        let dots ← newByType ino dir mode
        if !dots then pure none else linkNew name ino dir) := by
  unfold ext2NewInode newByType
  congr 1
  funext ino
  cases ino with
  | none => rfl
  | some ino =>
  dsimp only
  congr 1
  funext _
  split
  · rfl
  · split
    · rfl
    · rfl

/-- `ext2_mknod`. -/
def ext2Mknod (cwd : InodeId) (path : List Chr) (mode dev : BitVec 32) : FsM (Option InodeId) := do
  let (pdir, namebuf) ← ext2Path2inodeParent cwd path
  match pdir with
  | none => pure none
  | some pdir => ext2NewInode namebuf.str pdir mode dev

/-- `ext2_mkdir`. -/
def ext2Mkdir (cwd : InodeId) (path : List Chr) : FsM (Option InodeId) := ext2Mknod cwd path (S_IFDIR.setWidth 32) 0

end Aarch64Os.Kernel
