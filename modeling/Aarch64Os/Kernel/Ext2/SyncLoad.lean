import Mathlib
import Aarch64Os.Kernel.BufReread
import Aarch64Os.Kernel.Ext2.Record
import Aarch64Os.Kernel.Ext2.ReadRight

/-!
# An inode stored and loaded again

`inode_sync` and `ext2_get_inode` are two lists of fields over one packed record. Storing an
inode and loading its number gives the fields back, and touches no other byte of the disk: not
those of other records, and not those of its own record in between.
-/

namespace Aarch64Os.Kernel
set_option autoImplicit false
open Base

/-- The bytes of a record that `inode_sync` stores. -/
def StoredByte (x : Nat) : Prop := x < 2 ∨ 4 ≤ x ∧ x < 24 ∨ 26 ≤ x ∧ x < 32 ∨ 40 ≤ x ∧ x < 100

instance (x : Nat) : Decidable (StoredByte x) := by
  unfold StoredByte
  infer_instance

/-- Between the fields nothing is stored either. -/
theorem Inode.byte_encode_gap (x : Inode) (data : Block) {off k : Nat} (gap : ¬ StoredByte k) :
    byte (x.encode data off) (off + k) = byte data (off + k) := by
  unfold StoredByte at gap
  unfold Inode.encode
  simp (disch := omega) only [byte_splice_outside, byte_putLe_outside]

/-- One inode has the fields of the other, as far as a record keeps them. -/
structure Inode.Restores (x y : Inode) : Prop where
  mode : x.mode = y.mode
  size : x.size = y.size
  atime : x.atime = y.atime
  ctime : x.ctime = y.ctime
  mtime : x.mtime = y.mtime
  dtime : x.dtime = y.dtime
  links_count : x.links_count = y.links_count
  blocks : x.blocks = y.blocks
  block : x.block = y.block

section UpToDate
variable {s : Fs} {inum : BitVec 32} {ino : InodeId} {b : BufId} {held : Bool}

/-- The record of an inode in a buffer. -/
theorem Fs.UpToDate.rawInode (records : s.sb.Records) (h : s.UpToDate (s.sb.recordBlock inum))
    (slot : s.bcache.slot (s.sb.recordBlock inum) = some (b, held)) :
    ext2RawInode inum s = .ok ((b, s.sb.recordOff inum),
      s.hold b (s.sb.recordBlock inum) (s.disk (s.sb.recordBlock inum))) := by
  have least := records.least
  rw [ext2RawInode, FsM.bind_of_ok FsM.get_run, if_neg, FsM.bind_of_ok (h.bioRead slot)]
  · rfl
  · intro zero
    obtain zero | zero := zero
    · omega
    · exact (records.fits inum).1 zero

/-- `inode_sync` puts the record. -/
theorem Fs.UpToDate.inodeSync (records : s.sb.Records) (h : s.UpToDate (s.record ino))
    (slot : s.bcache.slot (s.record ino) = some (b, held)) :
    Kernel.inodeSync ino s =
      .ok ((), s.put b (s.record ino) ((s.itable ino).encode (s.disk (s.record ino)) (s.recordOff ino))) := by
  have fits : s.sb.recordOff (s.itable ino).inum + 100 ≤ BUFSIZE := (records.fits _).2
  rw [Kernel.inodeSync, FsM.bind_of_ok FsM.get_run, FsM.bind_of_ok (Fs.UpToDate.rawInode records h slot)]
  simp only
  rw [FsM.bind_of_ok (Coherent.bufData_hold ..), if_pos fits, FsM.bind_of_ok (Coherent.setBufData_hold ..),
    FsM.bind_of_ok (Coherent.bioWrite_hold ..)]
  exact h.bioFree slot _

/-- `ext2_get_inode` of an inode that has a place in the table. -/
theorem Fs.UpToDate.ext2GetInode (inum : BitVec 32) (records : s.sb.Records) (h : s.UpToDate (s.sb.recordBlock inum))
    (slot : s.bcache.slot (s.sb.recordBlock inum) = some (b, held)) (table : ino < NINODE) (here : (s.itable ino).inum = inum) :
    ∃ k u, Kernel.ext2GetInode inum s = .ok (some k, u) ∧ u.disk = s.disk ∧
      (u.itable k).Restores (s.inodeOn inum) := by
  obtain ⟨k, place⟩ : ∃ k, s.inodeSlot inum = some (k, true) := by
    cases found : (List.range NINODE).find? fun i => (s.itable i).inum = inum with
    | none =>
      have absent := List.find?_eq_none.1 found ino (List.mem_range.2 table)
      simp [here] at absent
    | some k => exact ⟨k, by rw [Fs.inodeSlot, found]⟩
  have find : findInode inum s = .ok (some k, s.setInode k fun x => { x with ref := x.ref + 1 }) := by
    simp only [findInode, place]
  -- the buffers do not depend on the table
  have raw := Fs.UpToDate.rawInode (s := s.setInode k fun x => { x with ref := x.ref + 1 }) records h slot
  have fits : s.sb.recordOff inum + 100 ≤ BUFSIZE := (records.fits inum).2
  let t := (s.setInode k fun x => { x with ref := x.ref + 1 }).setInode k fun x =>
    x.decode (s.disk (s.sb.recordBlock inum)) (s.sb.recordOff inum)
  have freed := Fs.UpToDate.bioFree_read (s := t) h slot
  refine ⟨k, t.put b (s.sb.recordBlock inum) (s.disk (s.sb.recordBlock inum)), ?_, ?_, ?_⟩
  · rw [Kernel.ext2GetInode, FsM.bind_of_ok find, FsM.bind_of_ok raw]
    simp only
    rw [FsM.bind_of_ok (Coherent.bufData_hold ..)]
    refine (congrFun (if_pos fits) _).trans ?_
    rw [FsM.bind_of_ok (FsM.modify_run _)]
    exact FsM.bind_of_ok freed
  · exact Function.update_eq_self_iff.2 rfl
  · have entry : t.itable k =
        ((s.setInode k fun x => { x with ref := x.ref + 1 }).itable k).decode (s.disk (s.sb.recordBlock inum)) (s.sb.recordOff inum) :=
      Fs.setInode_self ..
    show (t.itable k).Restores _
    rw [entry]
    constructor <;> rfl

end UpToDate

/-- **What `inode_sync` stores, `ext2_get_inode` loads.** The fields of the inode are back, the
records of other inodes are as they were, and so are the bytes of its own between the fields.
With a buffer for the record, both calls return. -/
theorem sync_load_restores {s : Fs} (ino : InodeId) (records : s.sb.Records) (table : ino < NINODE)
    (upToDate : s.UpToDate (s.record ino)) :
    (∀ t r u, inodeSync ino s = .ok ((), t) → ext2GetInode (s.itable ino).inum t = .ok (r, u) →
      (∃ k, r = some k ∧ (u.itable k).Restores (s.itable ino)) ∧
      (∀ j, j ≠ (s.itable ino).inum → ∀ x < s.sb.inode_size.toNat,
        byte (u.disk (s.sb.recordBlock j)) (s.sb.recordOff j + x) = byte (s.disk (s.sb.recordBlock j)) (s.sb.recordOff j + x)) ∧
      ∀ x < s.sb.inode_size.toNat, ¬ StoredByte x →
        byte (u.disk (s.record ino)) (s.recordOff ino + x) = byte (s.disk (s.record ino)) (s.recordOff ino + x)) ∧
    (s.Room (s.record ino) → ∃ t r u, inodeSync ino s = .ok ((), t) ∧ ext2GetInode (s.itable ino).inum t = .ok (r, u)) := by
  by_cases room : s.Room (s.record ino)
  case neg =>
    constructor
    · intro t r u sync
      rw [inodeSync, FsM.bind_of_ok FsM.get_run] at sync
      obtain ⟨p, v, raw, -⟩ := FsM.bind_ok.1 sync
      rw [ext2RawInode, FsM.bind_of_ok FsM.get_run] at raw
      split at raw
      · cases raw
      · have panics : bioRead (s.sb.recordBlock (s.itable ino).inum) s = .error (.panic "buf") := bioRead_full room
        rw [FsM.bind_run, panics] at raw
        cases raw
    · intro room'
      exact absurd room' room
  obtain ⟨⟨b, held⟩, slot⟩ := room.slot
  have fits : s.recordOff ino + 100 ≤ BUFSIZE := (records.fits _).2
  have sync := Fs.UpToDate.inodeSync records upToDate slot
  have again := upToDate.put slot ((s.itable ino).encode (s.disk (s.record ino)) (s.recordOff ino))
  have slot' := (upToDate.put_slot slot ((s.itable ino).encode (s.disk (s.record ino)) (s.recordOff ino)) (s.record ino)).trans slot
  obtain ⟨k, u, load, disk, restores⟩ := Fs.UpToDate.ext2GetInode
    (s := s.put b (s.record ino) ((s.itable ino).encode (s.disk (s.record ino)) (s.recordOff ino))) (s.itable ino).inum
    records again slot' table rfl
  constructor
  · intro t r u' sync' load'
    rw [sync] at sync'
    cases sync'
    rw [load] at load'
    cases load'
    rw [disk]
    refine ⟨⟨k, rfl, ?_⟩, ?_, ?_⟩
    · have stored := Fs.inodeOn_sync (t := s.put b (s.record ino) ((s.itable ino).encode (s.disk (s.record ino)) (s.recordOff ino)))
        records fits rfl rfl (s.itable ino).inum
      rw [if_pos rfl] at stored
      rw [stored] at restores
      exact ⟨restores.mode, restores.size, restores.atime, restores.ctime, restores.mtime, restores.dtime, restores.links_count,
        restores.blocks, restores.block⟩
    · intro j ne x lt
      rw [Fs.put_disk]
      by_cases same : s.sb.recordBlock j = s.record ino
      · rw [same, Function.update_self]
        apply Inode.byte_encode_outside
        have least := records.least
        obtain before | behind := records.disjoint ne same
        · left
          exact Nat.lt_of_lt_of_le (Nat.add_lt_add_left lt _) before
        · right
          exact (Nat.add_le_add_left (by omega) _).trans (behind.trans (Nat.le_add_right _ _))
      · rw [Function.update_of_ne same]
    · intro x lt gap
      rw [Fs.put_disk, Function.update_self]
      exact Inode.byte_encode_gap _ _ gap
  · intro _
    exact ⟨_, _, u, sync, load⟩

/-- The inode of the file of ten bytes. -/
theorem sync_load_restores_note : ∃ t k u, inodeSync 0 (noteFs 10) = .ok ((), t) ∧
    ext2GetInode ((noteFs 10).itable 0).inum t = .ok (some k, u) ∧ (u.itable k).Restores ((noteFs 10).itable 0) := by
  have main := sync_load_restores (s := noteFs 10) 0 (noteMount_records 10) (by decide) ((noteFs_coherent 10).upToDate _)
  obtain ⟨t, r, u, sync, load⟩ := main.2 ((noteFs_spare 10).room _)
  obtain ⟨⟨k, rfl, restores⟩, -⟩ := main.1 t r u sync load
  exact ⟨t, k, u, sync, load, restores⟩

end Aarch64Os.Kernel
