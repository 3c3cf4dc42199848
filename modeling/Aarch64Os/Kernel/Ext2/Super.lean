import Mathlib
import Aarch64Os.Kernel.Buf

/-!
# Mounting the file system (`kernel/ext2.c`)

`ext2_init` reads the superblock in block 1 and the descriptor of group 0 in block 2, at
the offsets of `struct ext2_superblock` and `struct ext2_bg_desc`. The one field it checks
is `s_magic`.
-/

namespace Aarch64Os.Kernel
set_option autoImplicit false
open Base

/-- The superblock `ext2_init` keeps, from the blocks of `struct ext2_superblock` and
`struct ext2_bg_desc`. The shift of 1024 takes its amount modulo 32, as the machine does. -/
def superblockOf (esb bg : Block) : Superblock where
  bsize := 1024#32 <<< ((le32 esb 24).toNat % 32)
  block_bitmap := le32 bg 0
  inode_bitmap := le32 bg 4
  inode_table := le32 bg 8
  inodes_count := le32 esb 0
  blocks_count := le32 esb 4
  first_data_block := le32 esb 20
  blocks_per_group := le32 esb 32
  inodes_per_group := le32 esb 40
  mtime := le32 esb 44
  wtime := le32 esb 48
  first_ino := le32 esb 84
  inode_size := le16 esb 88

/-- `ext2_init`. -/
def ext2Init : FsM Unit := do
  let bEsb ← bioRead 1#32
  let esb ← bufData bEsb
  if le16 esb 56 ≠ 0xef53#16 then throw (.panic "invalid filesystem")
  else
    let bBg ← bioRead 2#32
    let bg ← bufData bBg
    modify fun s => { s with sb := superblockOf esb bg }
    bioFree bEsb
    bioFree bBg

/-- The file system after `buf_init` and `inode_init`, with nothing mounted. -/
def Fs.boot (disk : BitVec 32 → Block) : Fs where
  disk := disk
  bcache := fun _ => Buf.zero
  sb := superblockOf (fun _ => 0) fun _ => 0
  itable := fun _ => Inode.zero

theorem Fs.boot_coherent (disk : BitVec 32 → Block) : Coherent (Fs.boot disk) where
  clear _ _ := rfl
  valid _ used := absurd rfl used
  data _ used := absurd rfl used
  once _ _ used := absurd rfl used

namespace Coherent
variable {s : Fs} {b d : BufId}

/-- `ext2_init`, once both its blocks have been read. -/
theorem ext2Init_eq (h : Coherent s) (slot : s.Slot b 1#32) (read : bioRead 1#32 s = .ok (b, s.hold b 1#32 (s.disk 1#32)))
    (slot' : (s.hold b 1#32 (s.disk 1#32)).Slot d 2#32)
    (read' : bioRead 2#32 (s.hold b 1#32 (s.disk 1#32)) =
      .ok (d, (s.hold b 1#32 (s.disk 1#32)).hold d 2#32 (s.disk 2#32)))
    (magic : le16 (s.disk 1#32) 56 = 0xef53#16) :
    ext2Init s = .ok ((), { s with sb := superblockOf (s.disk 1#32) (s.disk 2#32) }) := by
  -- only the superblock differs from the state of the two reads
  have mounted : Coherent { s with sb := superblockOf (s.disk 1#32) (s.disk 2#32) } :=
    ⟨h.clear, h.valid, h.data, h.once⟩
  obtain ⟨freed, second⟩ := mounted.free_first slot slot'
  have rest := (FsM.bind_of_ok (f := fun _ => bioFree d) freed).trans (mounted.free_hold second)
  rw [ext2Init, FsM.bind_of_ok read, FsM.bind_of_ok (bufData_hold ..), if_neg (not_not.2 magic),
    FsM.bind_of_ok read', FsM.bind_of_ok (bufData_hold ..), FsM.bind_of_ok (FsM.modify_run _)]
  exact rest

/-- `ext2_init` returns only for the magic number, and then only the superblock has changed. -/
theorem ext2Init_ok {t : Fs} (h : Coherent s) (run : ext2Init s = .ok ((), t)) :
    le16 (s.disk 1#32) 56 = 0xef53#16 ∧ t = { s with sb := superblockOf (s.disk 1#32) (s.disk 2#32) } := by
  obtain ⟨b, u, read, rest⟩ := FsM.bind_ok.1 run
  obtain ⟨slot, rfl⟩ := h.bioRead_inv read
  rw [FsM.bind_of_ok (bufData_hold ..)] at rest
  by_cases magic : le16 (s.disk 1#32) 56 = 0xef53#16
  · rw [if_neg (not_not.2 magic)] at rest
    obtain ⟨d, u, read', -⟩ := FsM.bind_ok.1 rest
    obtain ⟨slot', rfl⟩ := (h.hold slot).bioRead_inv read'
    rw [h.ext2Init_eq slot read slot' read' magic] at run
    exact ⟨magic, (Prod.mk.inj (Except.ok.inj run)).2.symm⟩
  · rw [if_pos magic] at rest
    simp at rest

end Coherent

/-- A disk with the magic number mounts. -/
theorem Fs.boot_mounts {disk : BitVec 32 → Block} (magic : le16 (disk 1#32) 56 = 0xef53#16) :
    ext2Init (Fs.boot disk) = .ok ((), { Fs.boot disk with sb := superblockOf (disk 1#32) (disk 2#32) }) := by
  have coherent := Fs.boot_coherent disk
  obtain ⟨b, slot, read⟩ := coherent.bioRead_ok (show (Fs.boot disk).Room 1#32 from ⟨0, .inr rfl⟩)
  obtain ⟨d, ne⟩ := exists_ne b
  have room : ((Fs.boot disk).hold b 1#32 (disk 1#32)).Room 2#32 :=
    ⟨d, .inr (by simp [Fs.hold, Bcache.set_ne _ _ ne, Fs.boot])⟩
  obtain ⟨e, slot', read'⟩ := (coherent.hold slot).bioRead_ok room
  exact coherent.ext2Init_eq slot read slot' read' magic

end Aarch64Os.Kernel
