import Mathlib
import Aarch64Os.Base.Ends
import Aarch64Os.Kernel.Ext2.Effects

/-!
# Records of the inode table (`kernel/ext2.c`)

`inode_sync` stores the fields of an inode in its record, and `ext2_get_inode` takes them from
there. Records of different inodes do not overlap, so one that is stored leaves the others as
they are.
-/

namespace Aarch64Os.Kernel
set_option autoImplicit false
open Base

section Encode
variable {data : Block} {off i : Nat}

theorem byte_putLe_inside {w : Nat} {v : BitVec w} (le : off ≤ i) (lt : i < off + w / 8) (fits : off + w / 8 ≤ BUFSIZE) :
    byte (putLe data off v) i = leByte v (i - off) := byte_splice_inside data (leByte v) le lt fits

theorem byte_putLe_outside {w : Nat} {v : BitVec w} (out : i < off ∨ off + w / 8 ≤ i) :
    byte (putLe data off v) i = byte data i := byte_splice_outside data (leByte v) out

/-- Outside the record nothing is stored. -/
theorem Inode.byte_encode_outside (x : Inode) (out : i < off ∨ off + 100 ≤ i) : byte (x.encode data off) i = byte data i := by
  unfold Inode.encode
  simp (disch := omega) only [byte_splice_outside, byte_putLe_outside]

/-- The bytes of the fields that are stored. -/
theorem Inode.byte_encode (x : Inode) (data : Block) (fits : off + 100 ≤ BUFSIZE) :
    (∀ k < 2, byte (x.encode data off) (off + k) = leByte x.mode k) ∧
    (∀ k < 4, byte (x.encode data off) (off + 4 + k) = leByte x.size k) ∧
    (∀ k < 4, byte (x.encode data off) (off + 8 + k) = leByte x.atime k) ∧
    (∀ k < 4, byte (x.encode data off) (off + 12 + k) = leByte x.ctime k) ∧
    (∀ k < 4, byte (x.encode data off) (off + 16 + k) = leByte x.mtime k) ∧
    (∀ k < 4, byte (x.encode data off) (off + 20 + k) = leByte x.dtime k) ∧
    (∀ k < 2, byte (x.encode data off) (off + 26 + k) = leByte x.links_count k) ∧
    (∀ k < 4, byte (x.encode data off) (off + 28 + k) = leByte x.blocks k) ∧
    ∀ (j : Fin 15), ∀ k < 4, byte (x.encode data off) (off + 40 + 4 * j + k) = leByte (x.block j) k := by
  unfold Inode.encode
  refine ⟨?_, ?_, ?_, ?_, ?_, ?_, ?_, ?_, fun j k lt => ?_⟩
  case refine_9 =>
    have slot := j.isLt
    have index : (off + 40 + 4 * j + k - (off + 40)) / 4 = j := by omega
    have rest : (off + 40 + 4 * j + k - (off + 40)) % 4 = k := by omega
    rw [byte_splice_inside _ _ (by omega) (by omega) (by omega), index, rest]
    congr 2
    exact Fin.ext (Nat.mod_eq_of_lt slot)
  all_goals
    intro k lt
    simp (disch := omega) only [byte_splice_outside, byte_putLe_outside, byte_putLe_inside]
    congr 1
    omega

/-- **A record that is stored** is read back. -/
theorem Inode.decode_encode (x y : Inode) (data : Block) (fits : off + 100 ≤ BUFSIZE) :
    y.decode (x.encode data off) off = { x with inum := y.inum, major := y.major, minor := y.minor, ref := y.ref } := by
  obtain ⟨mode, size, atime, ctime, mtime, dtime, links, blocks, block⟩ := x.byte_encode data fits
  have slots : (fun k : Fin 15 => le32 (x.encode data off) (off + 40 + 4 * k)) = x.block := funext fun j => le32_leByte (block j)
  rw [Inode.decode, le16_leByte mode, le32_leByte size, le32_leByte atime, le32_leByte ctime, le32_leByte mtime,
    le32_leByte dtime, le16_leByte links, le32_leByte blocks, slots]

/-- Only the bytes of the record matter. -/
theorem Inode.decode_congr (y : Inode) {data' : Block} (same : ∀ i, off ≤ i → i < off + 100 → byte data i = byte data' i) :
    y.decode data off = y.decode data' off := by
  have half : ∀ c, c + 2 ≤ 100 → le16 data (off + c) = le16 data' (off + c) := fun c le =>
    le16_congr fun k lt => same _ (by omega) (by omega)
  have word : ∀ c, c + 4 ≤ 100 → le32 data (off + c) = le32 data' (off + c) := fun c le =>
    le32_congr fun k lt => same _ (by omega) (by omega)
  have slots : (fun k : Fin 15 => le32 data (off + 40 + 4 * k)) = fun k : Fin 15 => le32 data' (off + 40 + 4 * k) := by
    funext k
    have slot := k.isLt
    rw [Nat.add_assoc]
    exact word (40 + 4 * k) (by omega)
  have mode := half 0 (by omega)
  rw [Nat.add_zero] at mode
  rw [Inode.decode, Inode.decode, mode, word 4 (by omega), word 8 (by omega), word 12 (by omega), word 16 (by omega),
    word 20 (by omega), half 26 (by omega), word 28 (by omega), slots]

end Encode

section Table
variable {sb : Superblock} {m n : BitVec 32}

/-- Records of two inodes are in different blocks, or lie apart in one. -/
theorem Superblock.Records.disjoint (h : sb.Records) (ne : m ≠ n) (block : sb.recordBlock m = sb.recordBlock n) :
    sb.recordOff m + sb.inode_size.toNat ≤ sb.recordOff n ∨ sb.recordOff n + sb.inode_size.toNat ≤ sb.recordOff m := by
  have pos := (h.fits m).1
  have quotient : (m - 1).toNat / sb.perBlock = (n - 1).toNat / sb.perBlock := by
    have same : BitVec.ofNat 32 ((m - 1).toNat / sb.perBlock) = BitVec.ofNat 32 ((n - 1).toNat / sb.perBlock) := by
      unfold Superblock.recordBlock at block
      exact (BitVec.add_right_inj _).1 block
    have low : ∀ i : BitVec 32, (i - 1).toNat / sb.perBlock < 2 ^ 32 := fun i =>
      (Nat.div_le_self _ _).trans_lt (i - 1).isLt
    have values := congrArg BitVec.toNat same
    rwa [BitVec.toNat_ofNat, BitVec.toNat_ofNat, Nat.mod_eq_of_lt (low m), Nat.mod_eq_of_lt (low n)] at values
  have rest : (m - 1).toNat % sb.perBlock ≠ (n - 1).toNat % sb.perBlock := by
    intro same
    have whole := Nat.div_add_mod (m - 1).toNat sb.perBlock
    rw [quotient, same, Nat.div_add_mod] at whole
    apply ne
    have pred : m - 1 = n - 1 := BitVec.eq_of_toNat_eq whole.symm
    exact (BitVec.sub_left_inj 1).1 pred
  unfold Superblock.recordOff
  rcases Nat.lt_or_gt_of_ne rest with lt | gt
  · left
    have next := Nat.mul_le_mul_right sb.inode_size.toNat lt
    rwa [Nat.succ_mul] at next
  · right
    have next := Nat.mul_le_mul_right sb.inode_size.toNat gt
    rwa [Nat.succ_mul] at next

/-- So do the parts of them that are stored. -/
theorem Superblock.Records.apart (h : sb.Records) (ne : m ≠ n) (block : sb.recordBlock m = sb.recordBlock n) :
    sb.recordOff m + 100 ≤ sb.recordOff n ∨ sb.recordOff n + 100 ≤ sb.recordOff m := by
  have least := h.least
  obtain before | behind := h.disjoint ne block
  · left
    omega
  · right
    omega

end Table

section Sync
variable {s : Fs} {ino : InodeId}

/-- A buffer that was read is changed, written and let go. -/
theorem Coherent.put_run (h : Coherent s) {b : BufId} {a : BitVec 32} (slot : s.Slot b a) (data : Block) :
    (do setBufData b data; bioWrite b; bioFree b : FsM Unit) (s.hold b a (s.disk a)) = .ok ((), s.put b a data) := by
  rw [FsM.bind_of_ok (Coherent.setBufData_hold ..), FsM.bind_of_ok (Coherent.bioWrite_hold ..)]
  exact Coherent.bioFree_hold (s := s.write a data) data (h.valid b) slot

/-- `inode_sync` stores the record. -/
theorem Coherent.inodeSync_after (h : Coherent s) (pos : s.record ino ≠ 0) : After (inodeSync ino) s fun _ t =>
    s.recordOff ino + 100 ≤ BUFSIZE ∧ Coherent t ∧ t.sb = s.sb ∧ t.itable = s.itable ∧
      t.disk = Function.update s.disk (s.record ino) ((s.itable ino).encode (s.disk (s.record ino)) (s.recordOff ino)) := by
  unfold inodeSync
  refine After.step FsM.get_run ?_
  refine After.bind (h.rawInode_after _) ?_
  rintro ⟨b, off⟩ t ⟨slot, rfl, rfl⟩
  dsimp only
  refine After.step (Coherent.bufData_hold ..) ?_
  split
  case isFalse => exact After.throw _
  case isTrue fits =>
    refine (After.iff_of_run (h.put_run slot _)).2 ?_
    exact ⟨fits, h.letGo_write slot pos, rfl, rfl, rfl⟩

/-- The record holds the inode then, and the other records are as they were. -/
theorem Fs.inodeOn_sync {t : Fs} (records : s.sb.Records) (fits : s.recordOff ino + 100 ≤ BUFSIZE) (sb : t.sb = s.sb)
    (disk : t.disk = Function.update s.disk (s.record ino) ((s.itable ino).encode (s.disk (s.record ino)) (s.recordOff ino)))
    (n : BitVec 32) : t.inodeOn n =
      if n = (s.itable ino).inum then { s.itable ino with inum := 0, major := 0, minor := 0, ref := 0 } else s.inodeOn n := by
  unfold Fs.inodeOn
  rw [sb, disk]
  split
  case isTrue here =>
    subst here
    rw [show s.sb.recordBlock (s.itable ino).inum = s.record ino from rfl, Function.update_self]
    exact Inode.decode_encode _ Inode.zero _ fits
  case isFalse other =>
    by_cases same : s.sb.recordBlock n = s.record ino
    · rw [same, Function.update_self]
      apply Inode.decode_congr
      intro i ge lt
      apply Inode.byte_encode_outside
      rcases records.apart other same with before | behind
      · exact .inl (lt.trans_le before)
      · exact .inr (behind.trans ge)
    · rw [Function.update_of_ne same]

end Sync

end Aarch64Os.Kernel
