import Mathlib
import Aarch64Os.Kernel.Ext2.Write

/-!
# Growing an inode (`kernel/ext2.c`)

`ext2_grow_inode_block` puts the numbers of newly marked blocks into the direct slots
from the first empty one on. The numbers are those of the lowest clear bits of the block
bitmap, one after the other.
-/

namespace Aarch64Os.Kernel
set_option autoImplicit false
open Base

/-- The clear bits of a bitmap, lowest first. -/
def freeBits (data : Block) : List Nat := (List.range (8 * BUFSIZE)).filter fun k => bit data k = false

/-- Setting the lowest clear bit leaves the others. -/
theorem freeBits_setBit {data : Block} {k : Nat} (lt : k < 8 * BUFSIZE) (clear : bit data k = false)
    (before : ∀ j < k, bit data j = true) : freeBits data = k :: freeBits (setBit data k) := by
  obtain ⟨n, total⟩ : ∃ n, 8 * BUFSIZE = k + (1 + n) := ⟨8 * BUFSIZE - k - 1, by omega⟩
  have split : List.range (8 * BUFSIZE) = List.range k ++ k :: List.range' (k + 1) n := by
    rw [total, List.range_add, Nat.add_comm 1 n, List.range_succ_eq_map, List.map_cons, List.map_map, List.range'_eq_map_range]
    congr 2
    exact List.map_congr_left fun x _ => by simp only [Function.comp]; omega
  have low : ∀ d : Block, (∀ j < k, bit d j = true) → (List.range k).filter (fun k => bit d k = false) = [] := by
    intro d ones
    refine List.filter_eq_nil_iff.2 fun j mem => ?_
    simp [ones j (List.mem_range.1 mem)]
  have ones : ∀ j < k, bit (setBit data k) j = true := fun j lt' => by simp [bit_setBit data lt, before j lt']
  have high : ∀ j ∈ List.range' (k + 1) n, (decide (bit (setBit data k) j = false)) = decide (bit data j = false) := by
    intro j mem
    have ne : j ≠ k := by have := (List.mem_range'_1.1 mem).1; omega
    simp [bit_setBit data lt, ne]
  rw [freeBits, freeBits, split, List.filter_append, List.filter_append, low data before, low _ ones,
    List.filter_cons_of_pos (by simp [clear]), List.filter_cons_of_neg (by simp [bit_setBit data lt]),
    List.filter_congr high]
  rfl

theorem freeBits_nodup (data : Block) : (freeBits data).Nodup := List.nodup_range.filter _

/-- The allocator takes the lowest clear bit. -/
theorem findFree_freeBits {data : Block} {bsize : BitVec 32} (size : bsize = 1024#32) {k : Nat} {rest : List Nat}
    (free : freeBits data = k :: rest) :
    findFree 0 bsize data = .ok (0 + (k : Int)) ∧ freeBits (setBit data k) = rest := by
  have mem : k ∈ freeBits data := by rw [free]; exact List.mem_cons_self
  obtain ⟨range, clear⟩ := List.mem_filter.1 mem
  have clear : bit data k = false := by simpa using clear
  have lt := List.mem_range.1 range
  have some : ¬ Full bsize data := by
    intro full
    have byte : k / 8 < BUFSIZE := by omega
    have ones := full ⟨k / 8, byte⟩ (by subst size; exact byte)
    rw [bit, dif_pos byte, ones, getLsbD_0xff (by omega)] at clear
    simp at clear
  obtain ⟨k', found⟩ := findFree_found 0 some
  rcases findFree_ok found with ⟨neg, -⟩ | ⟨k'', eq, -, lt', clear', before⟩
  · omega
  obtain rfl : k' = k'' := by omega
  have next := freeBits_setBit lt' clear' before
  obtain ⟨rfl, tail⟩ := List.cons.inj (free.symm.trans next)
  exact ⟨found, tail.symm⟩

/-- The slots from `n` on take the given block numbers. -/
def Inode.fill (i : Inode) (n : Nat) (bns : List Nat) : Inode :=
  { i with block := fun k => if n ≤ (k : Nat) then (bns[(k : Nat) - n]?.map (BitVec.ofNat 32)).getD (i.block k) else i.block k }

theorem Inode.fill_nil (i : Inode) (n : Nat) : i.fill n [] = i := by simp [Inode.fill]

theorem Inode.fill_cons (i : Inode) {n : Nat} (lt : n < 15) (bn : Nat) (bns : List Nat) :
    (({ i with block := Function.update i.block ⟨n, lt⟩ (BitVec.ofNat 32 bn) } : Inode)).fill (n + 1) bns =
      i.fill n (bn :: bns) := by
  simp only [Inode.fill]
  congr 1
  funext k
  by_cases e : (k : Nat) = n
  · obtain rfl : k = ⟨n, lt⟩ := Fin.ext e
    simp
  · have ne : k ≠ ⟨n, lt⟩ := fun eq => e (congrArg Fin.val eq)
    by_cases le : n ≤ (k : Nat)
    · obtain ⟨m, index⟩ : ∃ m, (k : Nat) - n = m + 1 := ⟨(k : Nat) - n - 1, by omega⟩
      have index' : (k : Nat) - (n + 1) = m := by omega
      rw [if_pos (by omega), if_pos le, index, index', Function.update_of_ne ne]
      rfl
    · rw [if_neg (by omega), if_neg le, Function.update_of_ne ne]

theorem Coherent.setInode {s : Fs} (h : Coherent s) (ino : InodeId) (f : Inode → Inode) : Coherent (s.setInode ino f) :=
  ⟨h.clear, h.valid, h.data, h.once⟩

theorem Fs.Spare.setInode {s : Fs} (h : s.Spare) (ino : InodeId) (f : Inode → Inode) : (s.setInode ino f).Spare := h

@[simp] theorem Fs.setInode_self (s : Fs) (ino : InodeId) (f : Inode → Inode) :
    (s.setInode ino f).itable ino = f (s.itable ino) := Function.update_self ..

/-- What growing has changed: the block map of the inode, its block count, the bitmap and
the inode's record. -/
structure Grown (s t : Fs) (ino : InodeId) (n : Nat) (bns : List Nat) : Prop where
  coherent : Coherent t
  spare : t.Spare
  sb : t.sb = s.sb
  inode : t.itable ino = (s.itable ino).fill n bns
  disk : ∀ a, a ≠ s.sb.block_bitmap → t.disk a = s.disk a

/-- The loop fills the slots with the numbers of the lowest clear bits. -/
theorem Coherent.growSlots_ok (ino : InodeId) (n left : Nat) : ∀ i (s : Fs), Coherent s → s.Spare →
    s.sb.bsize = 1024#32 → s.sb.block_bitmap ≠ 0 → left ≤ (freeBits s.blockBitmap).length → n + i + left ≤ 15 →
    ∃ t, growSlots ino n left i s = .ok ((), t) ∧ Grown s t ino (n + i) ((freeBits s.blockBitmap).take left) := by
  induction left with
  | zero =>
    intro i s h spare _ _ _ _
    exact ⟨s, rfl, h, spare, rfl, by rw [List.take_zero, Inode.fill_nil], fun _ _ => rfl⟩
  | succ left ih =>
    intro i s h spare size pos enough room
    obtain ⟨k, rest, free⟩ : ∃ k rest, freeBits s.blockBitmap = k :: rest := by
      cases free : freeBits s.blockBitmap with
      | nil => rw [free] at enough; simp at enough
      | cons k rest => exact ⟨k, rest, rfl⟩
    obtain ⟨found, next⟩ := findFree_freeBits size free
    obtain ⟨b, slot, read⟩ := h.bioRead_ok (spare.room s.sb.block_bitmap)
    obtain ⟨-, -, -, alloc⟩ := h.allocBit_eq le_rfl slot read found
    have slot_lt : n + i < 15 := by omega
    -- the state after one round
    let u := (s.put b s.sb.block_bitmap (setBit s.blockBitmap k)).setInode ino fun x =>
      { x with block := Function.update x.block ⟨n + i, slot_lt⟩ (BitVec.ofNat 32 k) }
    have bitmap : u.blockBitmap = setBit s.blockBitmap k := Function.update_self ..
    have coherent : Coherent u := (h.letGo_write slot pos).setInode ..
    obtain ⟨t, run, grown⟩ := ih (i + 1) u coherent (spare.put ..) size pos
      (by rw [bitmap, next]; rw [free] at enough; simpa using enough) (by omega)
    refine ⟨t, ?_, grown.coherent, grown.spare, grown.sb, ?_, fun a ne => ?_⟩
    · have number : BitVec.ofInt 32 (0 + (k : Int)) = BitVec.ofNat 32 k := by rw [zero_add, BitVec.ofInt_natCast]
      rw [growSlots, ext2AllocBlock, findFreeBlock, bbmpWriteBit, FsM.bind_of_ok alloc, FsM.bind_of_ok FsM.get_run,
        dif_pos slot_lt, number]
      exact (FsM.bind_of_ok (FsM.set_run u)).trans run
    · rw [grown.inode, bitmap, next, free, List.take_succ_cons, ← Inode.fill_cons _ slot_lt]
      simp only [u, Fs.setInode_self]
      rfl
    · rw [grown.disk a ne]
      exact Function.update_of_ne ne _ _

/-- `ext2_grow_inode_block`, with its blocks free and its slots in the array. -/
theorem Coherent.grow_ok {s : Fs} (h : Coherent s) (spare : s.Spare) {ino : InodeId} {n g : Nat}
    (size : s.sb.bsize = 1024#32) (pos : s.sb.block_bitmap ≠ 0) (slot : (s.itable ino).freeSlot = some n)
    (fits : s.RecordFits ino) (record : s.record ino ≠ 0) (room : n + g ≤ 15)
    (enough : g ≤ (freeBits s.blockBitmap).length) :
    ∃ t, ext2GrowInodeBlock ino (BitVec.ofNat 32 g) s = .ok (0, t) ∧ Coherent t ∧ t.Spare ∧ t.sb = s.sb ∧
      t.itable ino = { (s.itable ino).fill n ((freeBits s.blockBitmap).take g) with
        blocks := (s.itable ino).blocks + BitVec.ofNat 32 g * 2#32 } ∧
      ∀ a, a ≠ s.sb.block_bitmap → a ≠ s.record ino → t.disk a = s.disk a := by
  have count : (BitVec.ofNat 32 g).toInt.toNat = g := by
    have small : (BitVec.ofNat 32 g).toNat = g := by rw [BitVec.toNat_ofNat, Nat.mod_eq_of_lt]; omega
    rw [BitVec.toInt_eq_toNat_of_lt (by omega), small]
    rfl
  obtain ⟨u, run, grown⟩ := Coherent.growSlots_ok ino n g 0 s h spare size pos enough (by omega)
  let v := u.setInode ino fun x => { x with blocks := x.blocks + BitVec.ofNat 32 g * (u.sb.bsize / 512#32) }
  have inode : v.itable ino = { (s.itable ino).fill n ((freeBits s.blockBitmap).take g) with
      blocks := (s.itable ino).blocks + BitVec.ofNat 32 g * 2#32 } := by
    simp only [v, Fs.setInode_self, grown.inode, grown.sb, size]
    rfl
  have same : v.record ino = s.record ino := by
    simp only [Fs.record, inode]
    rw [show v.sb = s.sb from grown.sb]
    rfl
  have fits' : v.RecordFits ino := by
    simp only [Fs.RecordFits, Fs.recordOff, inode]
    rw [show v.sb = s.sb from grown.sb]
    exact fits
  obtain ⟨t, sync, coherent, spare', sb, itable, disk⟩ := (grown.coherent.setInode ino _ : Coherent v).inodeSync_ok
    grown.spare fits' (by rw [same]; exact record)
  refine ⟨t, ?_, coherent, spare', sb.trans grown.sb, by rw [itable, inode], fun a ne ne' => ?_⟩
  · rw [ext2GrowInodeBlock, FsM.bind_of_ok FsM.get_run, slot]
    simp only
    rw [count, FsM.bind_of_ok run, FsM.bind_of_ok (FsM.modify_run _), FsM.bind_of_ok sync]
    rfl
  · rw [disk a (by rwa [same])]
    exact grown.disk a ne

end Aarch64Os.Kernel
