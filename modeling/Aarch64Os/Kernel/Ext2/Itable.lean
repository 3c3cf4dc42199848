import Mathlib
import Aarch64Os.Kernel.File
import Aarch64Os.Kernel.Ext2.Dirent
import Aarch64Os.Kernel.Ext2.Grow

/-!
# Loading inodes (`kernel/fs.c`, `kernel/ext2.c`)

`find_inode` gives an inode number a place in the table of in-memory inodes, and
`ext2_get_inode` fills it from the record on disk, each time anew. Without a place the buffer
of the record stays held.
-/

namespace Aarch64Os.Kernel
set_option autoImplicit false
open Base

/-- `NINODE`. -/
abbrev NINODE : Nat := 256

/-- The entry `find_inode` takes: one with the number, else the first nobody refers to. -/
def Fs.inodeSlot (s : Fs) (inum : BitVec 32) : Option (InodeId × Bool) :=
  match (List.range NINODE).find? fun i => (s.itable i).inum = inum with
  | some i => some (i, true)
  | none => ((List.range NINODE).find? fun i => (s.itable i).ref = 0).map fun i => (i, false)

/-- `find_inode`. -/
def findInode (inum : BitVec 32) : FsM (Option InodeId) := fun s =>
  match s.inodeSlot inum with
  | some (i, true) => .ok (some i, s.setInode i fun x => { x with ref := x.ref + 1 })
  | some (i, false) => .ok (some i, s.setInode i fun x => { x with ref := x.ref + 1, inum := inum })
  | none => .ok (none, s)

/-- The fields `ext2_get_inode` takes from a record. -/
def Inode.decode (x : Inode) (data : Block) (off : Nat) : Inode :=
  { x with
    mode := le16 data off
    size := le32 data (off + 4)
    atime := le32 data (off + 8)
    ctime := le32 data (off + 12)
    mtime := le32 data (off + 16)
    dtime := le32 data (off + 20)
    links_count := le16 data (off + 26)
    blocks := le32 data (off + 28)
    block := fun k => le32 data (off + 40 + 4 * k) }

/-- `ext2_get_inode`. -/
def ext2GetInode (inum : BitVec 32) : FsM (Option InodeId) := do
  let i ← findInode inum
  let (b, off) ← ext2RawInode inum
  match i with
  | none => pure none
  | some i =>
    let data ← bufData b
    if off + 100 ≤ BUFSIZE then
      modify fun s => s.setInode i fun x => x.decode data off
      bioFree b
      pure (some i)
    else throw .undefined

/-- The offset of a record in its block. -/
def Superblock.recordOff (sb : Superblock) (inum : BitVec 32) : Nat :=
  (inum - 1).toNat % sb.perBlock * sb.inode_size.toNat

/-- The inode on disk. -/
def Fs.inodeOn (s : Fs) (inum : BitVec 32) : Inode :=
  Inode.zero.decode (s.disk (s.sb.recordBlock inum)) (s.sb.recordOff inum)

theorem Fs.inodeOn_congr {s t : Fs} (disk : t.disk = s.disk) (sb : t.sb = s.sb) (inum : BitVec 32) : t.inodeOn inum = s.inodeOn inum := by
  unfold Fs.inodeOn
  rw [disk, sb]

/-- An entry of the table filled for inode `inum`, with one more reference. -/
def Inode.fillFrom (x : Inode) (inum : BitVec 32) (data : Block) (off : Nat) : Inode :=
  { x.decode data off with ref := x.ref + 1, inum := inum }

/-- What `ext2_get_inode` leaves when the table has a place: the place, and the state. -/
def Fs.load (s : Fs) (inum : BitVec 32) : Option (InodeId × Fs) :=
  (s.inodeSlot inum).map fun p =>
    (p.1, s.setInode p.1 fun x => x.fillFrom inum (s.disk (s.sb.recordBlock inum)) (s.sb.recordOff inum))

/-- Entry `i` of the table holds inode `inum` as it is on disk. -/
structure Fs.Holds (s : Fs) (i : InodeId) (inum : BitVec 32) : Prop where
  number : (s.itable i).inum = inum
  mode : (s.itable i).mode = (s.inodeOn inum).mode
  blocks : (s.itable i).blocks = (s.inodeOn inum).blocks
  block : (s.itable i).block = (s.inodeOn inum).block

/-- The records of an ext2 volume with blocks of 1024 bytes. -/
structure Superblock.Records (sb : Superblock) : Prop where
  bsize : sb.bsize = 1024#32
  least : 128 ≤ sb.inode_size.toNat
  most : sb.inode_size.toNat ≤ 1024

/-- A record lies inside its block. -/
theorem Superblock.Records.fits {sb : Superblock} (h : sb.Records) (inum : BitVec 32) :
    sb.perBlock ≠ 0 ∧ sb.recordOff inum + 100 ≤ BUFSIZE := by
  have least := h.least
  have most := h.most
  have per : sb.perBlock = 1024 / sb.inode_size.toNat := by rw [perBlock, h.bsize]; rfl
  have pos : 0 < sb.perBlock := by
    rw [per]
    exact Nat.div_pos most (by omega)
  refine ⟨by omega, ?_⟩
  have last : (inum - 1).toNat % sb.perBlock + 1 ≤ sb.perBlock := Nat.mod_lt _ pos
  have whole : sb.perBlock * sb.inode_size.toNat ≤ 1024 := by
    rw [per]
    exact Nat.div_mul_le_self 1024 _
  have inside := (Nat.mul_le_mul_right sb.inode_size.toNat last).trans whole
  rw [Nat.add_mul, Nat.one_mul] at inside
  simp only [recordOff, BUFSIZE]
  omega

theorem Fs.inodeSlot_held {s : Fs} {inum : BitVec 32} {i : InodeId} (h : s.inodeSlot inum = some (i, true)) :
    (s.itable i).inum = inum := by
  unfold Fs.inodeSlot at h
  split at h
  case h_1 d found =>
    obtain rfl : d = i := by simpa using h
    simpa using List.find?_some found
  case h_2 => simp [Option.map_eq_some_iff] at h

/-- An entry that is taken anew was free, and no entry had the number. -/
theorem Fs.inodeSlot_new {s : Fs} {inum : BitVec 32} {i : InodeId} (h : s.inodeSlot inum = some (i, false)) :
    (s.itable i).ref = 0 ∧ ∀ j < NINODE, (s.itable j).inum ≠ inum := by
  unfold Fs.inodeSlot at h
  split at h
  case h_1 => simp at h
  case h_2 none =>
    obtain ⟨j, found, eq⟩ := Option.map_eq_some_iff.1 h
    cases eq
    constructor
    · simpa using List.find?_some found
    · intro j lt
      simpa using List.find?_eq_none.1 none j (List.mem_range.2 lt)

/-- It is an entry of the table. -/
theorem Fs.inodeSlot_lt {s : Fs} {inum : BitVec 32} {i : InodeId} {held : Bool} (h : s.inodeSlot inum = some (i, held)) :
    i < NINODE := by
  unfold Fs.inodeSlot at h
  split at h
  case h_1 found =>
    cases h
    exact List.mem_range.1 (List.mem_of_find?_eq_some found)
  case h_2 =>
    obtain ⟨j, found, eq⟩ := Option.map_eq_some_iff.1 h
    cases eq
    exact List.mem_range.1 (List.mem_of_find?_eq_some found)

section Load
variable {s t : Fs} {inum : BitVec 32} {i : InodeId}

/-- The record of an inode in a buffer. -/
theorem Coherent.ext2RawInode_ok (h : Coherent s) (spare : s.Spare) (records : s.sb.Records) (inum : BitVec 32) :
    ∃ b, s.Slot b (s.sb.recordBlock inum) ∧ ext2RawInode inum s =
      .ok ((b, s.sb.recordOff inum), s.hold b (s.sb.recordBlock inum) (s.disk (s.sb.recordBlock inum))) := by
  obtain ⟨b, slot, read⟩ := h.bioRead_ok (spare.room (s.sb.recordBlock inum))
  refine ⟨b, slot, ?_⟩
  have least := records.least
  rw [ext2RawInode, FsM.bind_of_ok FsM.get_run, if_neg, FsM.bind_of_ok read]
  · rfl
  · rintro (zero | zero)
    · omega
    · exact (records.fits inum).1 zero

/-- `find_inode` with a place in the table. -/
theorem findInode_ok {held : Bool} (slot : s.inodeSlot inum = some (i, held)) :
    ∃ g : Inode → Inode, findInode inum s = .ok (some i, s.setInode i g) ∧
      ∀ data off, (g (s.itable i)).decode data off = (s.itable i).fillFrom inum data off := by
  cases held with
  | true =>
    refine ⟨fun x => { x with ref := x.ref + 1 }, by simp only [findInode, slot], fun data off => ?_⟩
    simp only [Inode.fillFrom, Inode.decode, s.inodeSlot_held slot]
  | false => exact ⟨fun x => { x with ref := x.ref + 1, inum := inum }, by simp only [findInode, slot], fun _ _ => rfl⟩

/-- **`ext2_get_inode`** with a place in the table. -/
theorem Coherent.ext2GetInode_load (h : Coherent s) (spare : s.Spare) (records : s.sb.Records)
    (loaded : s.load inum = some (i, t)) : ext2GetInode inum s = .ok (some i, t) := by
  obtain ⟨⟨j, held⟩, slot, eq⟩ := Option.map_eq_some_iff.1 loaded
  obtain ⟨rfl, rfl⟩ := Prod.mk.inj eq
  simp only
  obtain ⟨g, find, same⟩ := findInode_ok slot
  obtain ⟨b, place, raw⟩ := (h.setInode j g).ext2RawInode_ok (spare.setInode j g) records inum
  have inside : (s.setInode j g).sb.recordOff inum + 100 ≤ BUFSIZE := (records.fits inum).2
  have filled : (s.setInode j g).setInode j (fun x => x.decode (s.disk (s.sb.recordBlock inum)) (s.sb.recordOff inum)) =
      s.setInode j fun x => x.fillFrom inum (s.disk (s.sb.recordBlock inum)) (s.sb.recordOff inum) := by
    simp only [Fs.setInode, Function.update_self, Function.update_idem, same]
  rw [ext2GetInode, FsM.bind_of_ok find, FsM.bind_of_ok raw]
  simp only
  rw [FsM.bind_of_ok (Coherent.bufData_hold ..), if_pos inside, FsM.bind_of_ok (FsM.modify_run _), ← filled]
  -- filling the entry and holding the buffer touch different parts of the state
  have freed := ((h.setInode j g).setInode j fun x =>
    x.decode (s.disk (s.sb.recordBlock inum)) (s.sb.recordOff inum)).free_hold place
  exact FsM.bind_of_ok freed

/-- **`ext2_get_inode`** without a place in the table returns `NULL`. -/
theorem Coherent.ext2GetInode_full (h : Coherent s) (spare : s.Spare) (records : s.sb.Records) (full : s.load inum = none) :
    ∃ u, ext2GetInode inum s = .ok (none, u) := by
  have slot : s.inodeSlot inum = none := Option.map_eq_none_iff.1 full
  obtain ⟨b, -, raw⟩ := h.ext2RawInode_ok spare records inum
  have find : findInode inum s = .ok (none, s) := by simp only [findInode, slot]
  refine ⟨s.hold b (s.sb.recordBlock inum) (s.disk (s.sb.recordBlock inum)), ?_⟩
  rw [ext2GetInode, FsM.bind_of_ok find, FsM.bind_of_ok raw]
  rfl

/-- Loading changes the table only. -/
theorem Fs.load_frame (loaded : s.load inum = some (i, t)) : t.disk = s.disk ∧ t.sb = s.sb ∧ t.bcache = s.bcache := by
  obtain ⟨p, -, eq⟩ := Option.map_eq_some_iff.1 loaded
  obtain ⟨rfl, rfl⟩ := Prod.mk.inj eq
  exact ⟨rfl, rfl, rfl⟩

/-- The entry holds the inode afterwards. -/
theorem Fs.load_holds (loaded : s.load inum = some (i, t)) : t.Holds i inum := by
  obtain ⟨p, -, eq⟩ := Option.map_eq_some_iff.1 loaded
  obtain ⟨rfl, rfl⟩ := Prod.mk.inj eq
  constructor <;> simp [Fs.setInode, Fs.inodeOn, Inode.decode, Inode.fillFrom]

end Load

end Aarch64Os.Kernel
