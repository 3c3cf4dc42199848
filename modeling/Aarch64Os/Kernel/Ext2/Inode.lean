import Mathlib
import Aarch64Os.Kernel.Ext2.Alloc

/-!
# Inodes: records, block maps, reading and writing (`kernel/ext2.c`)

The record of an inode in the inode table, the block map (twelve direct slots and the
single indirect block), and the loops that copy between a file and memory. A user buffer
is a function from positions to bytes. The counters of the loops are natural numbers,
with the widths of the source made explicit where a value is cut to 32 or 64 bits.
-/

namespace Aarch64Os.Kernel
set_option autoImplicit false
open Base

/-- Change one in-memory inode. -/
def Fs.setInode (s : Fs) (ino : InodeId) (f : Inode → Inode) : Fs :=
  { s with itable := Function.update s.itable ino (f (s.itable ino)) }

/-- `ext2_inode_nblock`. -/
def Inode.nblock (i : Inode) : Nat := i.blocks.toNat / 2

/-- Store a number of `w / 8` bytes at `off`. -/
def putLe {w : Nat} (data : Block) (off : Nat) (v : BitVec w) : Block := splice data off (leByte v) (w / 8)

/-- The fields `inode_sync` stores, at the offsets of `struct ext2_inode`. -/
def Inode.encode (i : Inode) (data : Block) (off : Nat) : Block :=
  let data := putLe data off i.mode
  let data := putLe data (off + 4) i.size
  let data := putLe data (off + 8) i.atime
  let data := putLe data (off + 12) i.ctime
  let data := putLe data (off + 16) i.mtime
  let data := putLe data (off + 20) i.dtime
  let data := putLe data (off + 26) i.links_count
  let data := putLe data (off + 28) i.blocks
  splice data (off + 40) (fun k => leByte (i.block (Fin.ofNat 15 (k / 4))) (k % 4)) 60

/-- Inode records in a block: `sb.bsize / sb.inode_size`. -/
def Superblock.perBlock (sb : Superblock) : Nat := sb.bsize.toNat / sb.inode_size.toNat

/-- The block of an inode's record. -/
def Superblock.recordBlock (sb : Superblock) (inum : BitVec 32) : BitVec 32 :=
  sb.inode_table + BitVec.ofNat 32 ((inum - 1).toNat / sb.perBlock)

/-- `ext2_raw_inode`: the buffer of the record and the record's offset in it. A division
by zero is undefined. -/
def ext2RawInode (inum : BitVec 32) : FsM (BufId × Nat) := do
  let s ← get
  if s.sb.inode_size.toNat = 0 ∨ s.sb.perBlock = 0 then throw .undefined
  else
    let itable ← bioRead (s.sb.recordBlock inum)
    pure (itable, (inum - 1).toNat % s.sb.perBlock * s.sb.inode_size.toNat)

/-- `inode_sync`. -/
def inodeSync (ino : InodeId) : FsM Unit := do
  let s ← get
  let (b, off) ← ext2RawInode (s.itable ino).inum
  let data ← bufData b
  if off + 100 ≤ BUFSIZE then
    setBufData b ((s.itable ino).encode data off)
    bioWrite b
    bioFree b
  else throw .undefined

/-- `read_indirect_block`, on the data of the indirect block. -/
def readIndirectBlock (map : Block) (bnum : Nat) : FsM BufId :=
  if 4 * (bnum - 12) + 4 ≤ BUFSIZE then bioRead (le32 map (4 * (bnum - 12))) else throw .undefined

/-- `ext2_inode_block`. -/
def ext2InodeBlock (ino : InodeId) (bi : Nat) : FsM BufId := do
  let s ← get
  if h : bi < 12 then bioRead ((s.itable ino).block ⟨bi, direct_slot h⟩)
  else
    let map ← bioRead ((s.itable ino).block 12)
    let data ← bufData map
    let b ← readIndirectBlock data bi
    bioFree map
    pure b

/-- The loop of `ext2_grow_inode_block`, from slot `n + i` on; `left` blocks are to come.
Past the end of the array the store is undefined. -/
def growSlots (ino : InodeId) (n : Nat) : Nat → Nat → FsM Unit
  | 0, _ => pure ()
  | left + 1, i => do
    let bn ← ext2AllocBlock
    let s ← get
    if h : n + i < 15 then
      set (s.setInode ino fun x => { x with block := Function.update x.block ⟨n + i, h⟩ (BitVec.ofInt 32 bn) })
      growSlots ino n left (i + 1)
    else throw .undefined

/-- The first direct slot that is 0. -/
def Inode.freeSlot (i : Inode) : Option Nat := (List.range 12).find? fun n => i.block (Fin.ofNat 15 n) = 0

/-- `ext2_grow_inode_block`. -/
def ext2GrowInodeBlock (ino : InodeId) (nblock : BitVec 32) : FsM Int := do
  let s ← get
  match (s.itable ino).freeSlot with
  | none => pure (-1)
  | some n =>
    growSlots ino n nblock.toInt.toNat 0
    modify fun s => s.setInode ino fun x => { x with blocks := x.blocks + nblock * (s.sb.bsize / 512#32) }
    inodeSync ino
    pure 0

/-- `cpsize` of the copying loops: what is left, but not past the end of the block. -/
def copySize (bsize size ooff : Nat) : Nat :=
  let cpsize := min size bsize
  if ooff + cpsize > bsize then bsize - ooff else cpsize

/-- `len` bytes from `off` on. -/
def bytesAt (data : Block) (off len : Nat) : List (BitVec 8) := (List.range len).map fun x => byte data (off + x)

/-- `memcpy(buf, b->data + off, len)`. -/
def copyOut (b : BufId) (off len : Nat) : FsM (List (BitVec 8)) := do
  let data ← bufData b
  if off + len ≤ BUFSIZE then pure (bytesAt data off len) else throw .undefined

/-- `memcpy(b->data + off, buf, len)`. -/
def copyIn (b : BufId) (off : Nat) (buf : Nat → BitVec 8) (len : Nat) : FsM Unit := do
  let data ← bufData b
  if off + len ≤ BUFSIZE then setBufData b (splice data off buf len) else throw .undefined

/-- The loop of `ext2_read_inode`; `left` counts the blocks below `ext2_inode_nblock`. -/
def readBlocks (ino : InodeId) (bsize lastblk : Nat) : Nat → Nat → Nat → Nat → FsM (List (BitVec 8))
  | 0, _, _, _ => pure []
  | left + 1, i, size, ooff =>
    if i ≤ lastblk then do
      let b ← ext2InodeBlock ino i
      let bytes ← copyOut b ooff (copySize bsize size ooff)
      bioFree b
      let rest ← readBlocks ino bsize lastblk left (i + 1) (size - copySize bsize size ooff) 0
      pure (bytes ++ rest)
    else pure []

/-- `ext2_read_inode`: its `int` result, and the bytes it has stored. -/
def ext2ReadInode (ino : InodeId) (off size : BitVec 64) : FsM (Int × List (BitVec 8)) := do
  let s ← get
  let isize := (s.itable ino).size.toNat
  let bsize := s.sb.bsize.toNat
  if off.toNat > isize then pure (-1, [])
  else
    let size := if (off + size).toNat > isize then isize - off.toNat else size.toNat
    if bsize = 0 then throw .undefined
    else
      let offblk := off.toNat / bsize % 2 ^ 32
      let lastblk := (size + off.toNat) % 2 ^ 64 / bsize % 2 ^ 32
      let bytes ← readBlocks ino bsize lastblk ((s.itable ino).nblock - offblk) offblk size (off.toNat % bsize)
      pure ((BitVec.ofNat 32 bytes.length).toInt, bytes)

/-- The loop of `ext2_w_inode`; `pos` is how far `buf` has advanced. The remaining size
drops by a whole block, also after a first block that was filled in part. -/
def writeBlocks (ino : InodeId) (buf : Nat → BitVec 8) (bsize lastblk : Nat) : Nat → Nat → Nat → Nat → Nat → FsM Unit
  | 0, _, _, _, _ => pure ()
  | left + 1, i, size, ooff, pos =>
    if i ≤ lastblk then do
      let b ← ext2InodeBlock ino i
      copyIn b ooff (fun x => buf (pos + x)) (copySize bsize size ooff)
      bioWrite b
      bioFree b
      writeBlocks ino buf bsize lastblk left (i + 1) (if size > bsize then size - bsize else 0) 0
        (pos + copySize bsize size ooff)
    else pure ()

/-- The growing step of `ext2_w_inode`, whose failure nobody looks at. -/
def growTo (ino : InodeId) (lastblk : Nat) : FsM Unit := do
  let s ← get
  if lastblk > (s.itable ino).nblock then
    let _ ← ext2GrowInodeBlock ino (BitVec.ofNat 32 (lastblk - (s.itable ino).nblock))
    pure ()
  else pure ()

/-- `ext2_w_inode`. -/
def ext2WInode (ino : InodeId) (buf : Nat → BitVec 8) (off size : BitVec 64) : FsM Int := do
  let s ← get
  let isize := (s.itable ino).size.toNat
  let bsize := s.sb.bsize.toNat
  if off.toNat > isize then pure (-1)
  else
    set (if (off + size).toNat > isize then s.setInode ino fun x => { x with size := (off + size).setWidth 32 } else s)
    if bsize = 0 then throw .undefined
    else
      let offblk := off.toNat / bsize % 2 ^ 32
      let lastblk := (size + off).toNat / bsize % 2 ^ 32
      growTo ino lastblk
      let s ← get
      writeBlocks ino buf bsize lastblk ((s.itable ino).nblock - offblk) offblk size.toNat (off.toNat % bsize) 0
      inodeSync ino
      pure (size.setWidth 32).toInt

end Aarch64Os.Kernel
