import Mathlib
import Aarch64Os.Kernel.Ext2.WriteBack

/-!
# When a write is read back (`ext2_w_inode`, `ext2_read_inode`)

The writing loop does what it should when it starts on a block boundary or stays in one
block, and when the inode has all the blocks the data goes to before the loop starts.
These are there already, or they are added; what is added ends with the last whole block
of the data, so the data has to end with it too.
-/

namespace Aarch64Os.Kernel
set_option autoImplicit false
set_option maxRecDepth 4000
open Base

/-- A write of `n` bytes at `off` adds no block, and the blocks there are hold its data. -/
structure Fs.InPlace (s : Fs) (ino : InodeId) (off n : Nat) : Prop where
  counted : (off + n) / 1024 ≤ (s.itable ino).nblock
  held : 0 < n → off + n ≤ (s.itable ino).nblock * 1024

/-- Block `a` is neither the record of the inode nor one of its blocks. -/
structure Fs.Fresh (s : Fs) (ino : InodeId) (a : BitVec 32) : Prop where
  pos : a ≠ 0
  record : a ≠ s.record ino
  map : a ≠ (s.itable ino).block 12
  block : ∀ j, j < (s.itable ino).nblock → s.bmap ino j ≠ some a

/-- A write of `n` bytes at `off` adds direct blocks: there are enough, and they are free as
far as this inode goes. -/
structure Fs.Adds (s : Fs) (ino : InodeId) (off n : Nat) : Prop where
  more : (s.itable ino).nblock < (off + n) / 1024
  direct : (off + n) / 1024 ≤ 12
  slot : (s.itable ino).freeSlot = some (s.itable ino).nblock
  enough : (off + n) / 1024 - (s.itable ino).nblock ≤ (freeBits s.blockBitmap).length
  fresh : ∀ k ∈ (freeBits s.blockBitmap).take ((off + n) / 1024 - (s.itable ino).nblock), s.Fresh ino (BitVec.ofNat 32 k)

/-- The blocks it adds are filled to the end, and the data reaches back to the old ones. -/
structure Fs.Extends (s : Fs) (ino : InodeId) (off n : Nat) : Prop extends s.Adds ino off n where
  whole : (off + n) % 1024 = 0
  attached : off ≤ (s.itable ino).nblock * 1024

/-- The blocks that `n` bytes at `off` go to are private to their place in the file. -/
def Fs.Mine (s : Fs) (ino : InodeId) (off n : Nat) : Prop :=
  ∀ j, off / 1024 ≤ j → j * 1024 < off + n → j < (s.itable ino).nblock → s.Private ino j

/-- The loop starts on a block boundary, or stays in one block. -/
def Aligned (off n : Nat) : Prop := off % 1024 = 0 ∨ off % 1024 + n ≤ 1024

/-- The state `u` the writing loop starts in for `n` bytes at `off`. -/
structure Prepared (s u : Fs) (ino : InodeId) (off n : Nat) : Prop where
  run : growTo ino ((off + n) / 1024) (s.resize ino (off + n)) = .ok ((), u)
  coherent : Coherent u
  spare : u.Spare
  sb : u.sb = s.sb
  size : (u.itable ino).size.toNat = max (s.itable ino).size.toNat (off + n)
  own : ∀ j, off / 1024 ≤ j → j * 1024 < off + n → j < (u.itable ino).nblock → u.Own ino (u.itable ino).nblock j
  fits : u.RecordFits ino
  record : u.record ino ≠ 0
  record_map : u.record ino ≠ (u.itable ino).block 12
  data : ∀ j a, j < (u.itable ino).nblock → u.bmap ino j = some a → a ≠ u.record ino

/-- A write of `n` bytes at `off` can be stored. -/
structure Fs.Storable (s : Fs) (ino : InodeId) (off n : Nat) : Prop where
  block_size : s.sb.bsize = 1024#32
  small : n < 2 ^ 31
  nowrap : off + n < 2 ^ 32
  mine : s.Mine ino off n
  aligned : Aligned off n
  room : s.InPlace ino off n ∨ s.Extends ino off n

/-- A write that comes to its end: its blocks are in reach of the indirect block, and growing
adds nothing, has no slot, or works. -/
structure Fs.Ends (s : Fs) (ino : InodeId) (off n : Nat) : Prop where
  block_size : s.sb.bsize = 1024#32
  small : n < 2 ^ 31
  nowrap : off + n < 2 ^ 32
  mine : s.Mine ino off n
  reach : (off + n) / 1024 ≤ (s.itable ino).nblock ∧ (off + n) / 1024 < 268 ∨
    (s.itable ino).freeSlot = none ∧ 0 < n ∧ (s.itable ino).nblock ≤ 268 ∨ s.Adds ino off n

section ReadBack
variable {s t u : Fs} {ino : InodeId}

/-- One byte, as the reader sees it. -/
theorem Coherent.ext2ReadInode_one (h : Coherent s) (spare : s.Spare) (size : s.sb.bsize = 1024#32) {k : Nat}
    (lt : k < (s.itable ino).size.toNat) :
    (ext2ReadInode ino (BitVec.ofNat 64 k) (BitVec.ofNat 64 1) s).map Prod.fst = (s.view ino).one k := by
  have bsize : s.sb.bsize.toNat = 1024 := by rw [size]; rfl
  have small : (s.view ino).size < 2 ^ 32 := (s.itable ino).size.isLt
  rw [h.ext2ReadInode_eq spare, bsize, (s.view ino).read_one small lt]
  cases (s.view ino).one k <;> rfl

/-- The `int` that a size below 2^31 comes back as. -/
theorem int_of_small {n : BitVec 64} (small : n.toNat < 2 ^ 31) : (n.setWidth 32).toInt = n.toNat := by
  have low : (n.setWidth 32).toNat = n.toNat := by
    rw [BitVec.toNat_setWidth, Nat.mod_eq_of_lt]
    omega
  rw [BitVec.toInt_eq_toNat_of_lt (by omega), low]

/-- A write is read back when it is aligned, has its blocks, and adding them has shown nothing new. -/
theorem Prepared.reads_back {off n : BitVec 64} (volume : Volume s ino) (h : Prepared s u ino off.toNat n.toNat) (size : s.sb.bsize = 1024#32)
    (le : off.toNat ≤ (s.itable ino).size.toNat) (small : n.toNat < 2 ^ 31) (nowrap : off.toNat + n.toNat < 2 ^ 32)
    (aligned : Aligned off.toNat n.toNat) (room : u.InPlace ino off.toNat n.toNat)
    (one : ∀ k, k < off.toNat ∨ off.toNat + n.toNat ≤ k → (u.view ino).one k = (s.view ino).one k) :
    ReadsBack s ino off n := by
  intro buf m t run _
  rw [ext2WInode_eq s ino buf size le nowrap, FsM.bind_of_ok h.run, FsM.bind_of_ok FsM.get_run] at run
  rcases h.coherent.store_ok h.spare buf aligned room.counted h.own h.fits h.record h.record_map h.data
    (n.setWidth 32).toInt with ⟨t', stored, after⟩ | failed
  case inr =>
    rw [failed] at run
    simp at run
  rw [stored] at run
  obtain ⟨rfl, rfl⟩ : (n.setWidth 32).toInt = m ∧ t' = t := by simpa using run
  have size' : u.sb.bsize = 1024#32 := by rw [h.sb, size]
  rw [int_of_small small]
  have number : BitVec.ofInt 64 (n.toNat : Int) = BitVec.ofNat 64 n.toNat := BitVec.ofInt_natCast ..
  refine ⟨⟨t', ?_⟩, fun k lt out => ?_⟩
  · have result : (BitVec.ofNat 32 n.toNat).toInt = n.toNat := by
      rw [← int_of_small small]
      congr 1
    have read := after.read_back size' (by rw [h.size]; omega) room.held
    rw [BitVec.ofNat_toNat, BitVec.setWidth_eq, result, ← number] at read
    exact read
  · have lt' : k < (t'.itable ino).size.toNat := by rw [after.itable, h.size]; omega
    have size'' : t'.sb.bsize = 1024#32 := by rw [after.sb, size']
    rw [after.coherent.ext2ReadInode_one after.spare size'' lt', volume.coherent.ext2ReadInode_one volume.spare size lt,
      after.one out, one k out]

/-- With its blocks there, or no slot for more, the loop starts at once. -/
theorem Volume.prepared_stay (volume : Volume s ino) {off n : Nat} (nowrap : off + n < 2 ^ 32)
    (stay : (off + n) / 1024 ≤ (s.itable ino).nblock ∨ (s.itable ino).freeSlot = none) (mine : s.Mine ino off n) :
    Prepared s (s.resize ino (off + n)) ino off n := by
  have v := volume.resize (off + n)
  refine ⟨?_, v.coherent, v.spare, rfl, ?_, fun j ge lt below => ?_, v.fits, v.record, v.record_map,
    fun j a lt mapped => ?_⟩
  · rw [growTo, FsM.bind_of_ok FsM.get_run, Fs.resize_nblock]
    rcases stay with le | full
    · rw [if_neg (Nat.not_lt.2 le)]
      rfl
    · have full' : ((s.resize ino (off + n)).itable ino).freeSlot = none := by
        rw [Fs.resize_itable]
        exact full
      have grow : ext2GrowInodeBlock ino (BitVec.ofNat 32 ((off + n) / 1024 - (s.itable ino).nblock)) (s.resize ino (off + n)) =
          .ok (-1, s.resize ino (off + n)) := by
        rw [ext2GrowInodeBlock, FsM.bind_of_ok FsM.get_run, full']
        rfl
      split
      · exact FsM.bind_of_ok grow
      · rfl
  · have bound := (s.itable ino).size.isLt
    rw [Fs.resize_itable, BitVec.toNat_ofNat, Nat.mod_eq_of_lt (by omega)]
  · rw [Fs.resize_nblock] at below ⊢
    intro a mapped
    rw [Fs.resize_bmap] at mapped ⊢
    obtain ⟨pos, alone⟩ := mine j ge lt below a mapped
    obtain ⟨-, -, other⟩ := volume.data j a below mapped pos
    exact ⟨pos, by rwa [Fs.resize_itable], alone⟩
  · by_cases zero : a = 0
    · rw [zero]
      exact v.record.symm
    · exact (v.data j a lt mapped zero).1

/-- A direct block. -/
theorem Fs.bmap_direct (s : Fs) (ino : InodeId) {j : Nat} (lt : j < 12) :
    s.bmap ino j = some ((s.itable ino).block ⟨j, direct_slot lt⟩) := dif_pos lt

/-- The state once blocks up to number `e` have been added: a block is an old one, or it has
the number of a bit that was clear. -/
structure Extended (s u : Fs) (ino : InodeId) (e : Nat) : Prop where
  coherent : Coherent u
  spare : u.Spare
  sb : u.sb = s.sb
  inum : (u.itable ino).inum = (s.itable ino).inum
  count : (u.itable ino).nblock = e
  map : (u.itable ino).block 12 = (s.itable ino).block 12
  block : ∀ j, j < e →
    j < (s.itable ino).nblock ∧ u.bmap ino j = s.bmap ino j ∨
      (s.itable ino).nblock ≤ j ∧ ∃ k, (freeBits s.blockBitmap)[j - (s.itable ino).nblock]? = some k ∧
        k < 2 ^ 32 ∧ u.bmap ino j = some (BitVec.ofNat 32 k) ∧ s.Fresh ino (BitVec.ofNat 32 k)
  disk : ∀ a, a ≠ s.sb.block_bitmap → a ≠ s.record ino → u.disk a = s.disk a

/-- A direct slot once the clear bits have been filled in. -/
theorem Fs.Adds.fill_block {off n : Nat} (ext : s.Adds ino off n) {j : Nat} (lt : j < (off + n) / 1024)
    (inode : (u.itable ino).block = ((s.itable ino).fill (s.itable ino).nblock
      ((freeBits s.blockBitmap).take ((off + n) / 1024 - (s.itable ino).nblock))).block) :
    j < (s.itable ino).nblock ∧ u.bmap ino j = s.bmap ino j ∨
      (s.itable ino).nblock ≤ j ∧ ∃ k, (freeBits s.blockBitmap)[j - (s.itable ino).nblock]? = some k ∧
        k < 2 ^ 32 ∧ u.bmap ino j = some (BitVec.ofNat 32 k) ∧ s.Fresh ino (BitVec.ofNat 32 k) := by
  have direct := ext.direct
  have enough := ext.enough
  rw [u.bmap_direct ino (by omega), s.bmap_direct ino (by omega)]
  by_cases low : j < (s.itable ino).nblock
  · refine .inl ⟨low, ?_⟩
    simp only [inode, Inode.fill]
    rw [if_neg (by omega)]
  · have index : j - (s.itable ino).nblock < (freeBits s.blockBitmap).length := by omega
    have taken : ((freeBits s.blockBitmap).take ((off + n) / 1024 - (s.itable ino).nblock))[j - (s.itable ino).nblock]? =
        some ((freeBits s.blockBitmap)[j - (s.itable ino).nblock]) := by
      rw [List.getElem?_take_of_lt (by omega), List.getElem?_eq_getElem index]
    have mem := List.mem_of_getElem? taken
    have range := List.mem_range.1 (List.mem_filter.1 (List.mem_of_mem_take mem)).1
    refine .inr ⟨by omega, _, List.getElem?_eq_getElem index, ?_, ?_, ext.fresh _ mem⟩
    · simp only [BUFSIZE] at range
      omega
    · simp only [inode, Inode.fill]
      rw [if_pos (by omega), taken]
      rfl

/-- The indirect slot is not filled in. -/
theorem Fs.Adds.fill_map {off n : Nat} (ext : s.Adds ino off n) :
    ((s.itable ino).fill (s.itable ino).nblock
      ((freeBits s.blockBitmap).take ((off + n) / 1024 - (s.itable ino).nblock))).block 12 = (s.itable ino).block 12 := by
  have more := ext.more
  have direct := ext.direct
  have past : ((freeBits s.blockBitmap).take ((off + n) / 1024 - (s.itable ino).nblock))[12 - (s.itable ino).nblock]? = none := by
    rw [List.getElem?_eq_none]
    rw [List.length_take]
    omega
  simp only [Inode.fill]
  rw [if_pos (by change _ ≤ 12; omega)]
  exact congrArg (fun o : Option Nat => (o.map (BitVec.ofNat 32)).getD _) past

/-- With blocks to add, `ext2_w_inode` adds them. -/
theorem Volume.extended (volume : Volume s ino) (size : s.sb.bsize = 1024#32) {off n : Nat}
    (ext : s.Adds ino off n) :
    ∃ u, growTo ino ((off + n) / 1024) (s.resize ino (off + n)) = .ok ((), u) ∧ Extended s u ino ((off + n) / 1024) ∧
      (u.itable ino).size.toNat = max (s.itable ino).size.toNat (off + n) := by
  have v := volume.resize (off + n)
  obtain ⟨more, direct, slot, enough, fresh⟩ := id ext
  have slot' : ((s.resize ino (off + n)).itable ino).freeSlot = some (s.itable ino).nblock := by
    rw [Fs.resize_itable]
    exact slot
  have grows : (off + n) / 1024 > ((s.resize ino (off + n)).itable ino).nblock := by rwa [Fs.resize_nblock]
  obtain ⟨u, run, coherent, spare, sb, inode, disk⟩ := v.coherent.grow_ok v.spare size volume.bitmap slot' v.fits v.record
    (g := (off + n) / 1024 - (s.itable ino).nblock) (by omega) enough
  rw [Fs.resize_itable] at inode
  refine ⟨u, ?_, ⟨coherent, spare, sb, ?_, ?_, ?_, fun j lt => ext.fill_block lt ?_, fun a ne ne' => disk a ne ?_⟩, ?_⟩
  · rw [growTo, FsM.bind_of_ok FsM.get_run, if_pos grows, Fs.resize_nblock, FsM.bind_of_ok run]
    rfl
  · rw [inode]
    rfl
  · have small : (BitVec.ofNat 32 ((off + n) / 1024 - (s.itable ino).nblock)).toNat = (off + n) / 1024 - (s.itable ino).nblock := by
      rw [BitVec.toNat_ofNat, Nat.mod_eq_of_lt (by omega)]
    have old : (s.itable ino).nblock = (s.itable ino).blocks.toNat / 2 := rfl
    have two : (2#32).toNat = 2 := rfl
    have blocks : (u.itable ino).blocks = (s.itable ino).blocks +
        BitVec.ofNat 32 ((off + n) / 1024 - (s.itable ino).nblock) * 2#32 := congrArg Inode.blocks inode
    rw [Inode.nblock, blocks, BitVec.toNat_add, BitVec.toNat_mul, small, two]
    omega
  · rw [inode]
    exact ext.fill_map
  · rw [inode]
    rfl
  · simp only [Fs.record, Fs.resize_itable]
    exact ne'
  · have bound := (s.itable ino).size.isLt
    rw [inode]
    simp only [Inode.fill]
    rw [BitVec.toNat_ofNat, Nat.mod_eq_of_lt (by omega)]

namespace Extended
variable {off n e : Nat}

theorem record (h : Extended s u ino e) : u.record ino = s.record ino := by simp only [Fs.record, h.sb, h.inum]

/-- The blocks the data goes to are the inode's own. -/
theorem own (h : Extended s u ino e) (volume : Volume s ino) (mine : s.Mine ino off n) {j : Nat} (ge : off / 1024 ≤ j)
    (lt : j * 1024 < off + n) (below : j < e) : u.Own ino e j := by
  intro a mapped
  rw [h.map]
  rcases h.block j below with ⟨low, old⟩ | ⟨high, k, clear, lt_k, new, fresh⟩
  · rw [old] at mapped
    obtain ⟨pos, alone⟩ := mine j ge lt low a mapped
    refine ⟨pos, (volume.data j a low mapped pos).2.2, fun j' below' ne both => ?_⟩
    rcases h.block j' below' with ⟨low', old'⟩ | ⟨-, k', -, -, new', fresh'⟩
    · exact alone j' low' ne (old' ▸ both)
    · exact fresh'.block j low (mapped.trans (both.symm.trans new'))
  · obtain rfl := Option.some.inj (new.symm.trans mapped)
    refine ⟨fresh.pos, fresh.map, fun j' below' ne both => ?_⟩
    rcases h.block j' below' with ⟨low', old'⟩ | ⟨high', k', clear', lt_k', new', -⟩
    · exact fresh.block j' low' (old' ▸ both)
    · -- the clear bits are pairwise different
      have equal := congrArg BitVec.toNat (Option.some.inj (new'.symm.trans both))
      rw [BitVec.toNat_ofNat, BitVec.toNat_ofNat, Nat.mod_eq_of_lt lt_k, Nat.mod_eq_of_lt lt_k'] at equal
      subst equal
      obtain ⟨inside, -⟩ := List.getElem?_eq_some_iff.1 clear'
      have index := (List.getElem?_inj inside (freeBits_nodup s.blockBitmap)).1 (clear'.trans clear.symm)
      omega

/-- None of the blocks is that of the record. -/
theorem data (h : Extended s u ino e) (volume : Volume s ino) {j : Nat} {a : BitVec 32} (below : j < e)
    (mapped : u.bmap ino j = some a) : a ≠ u.record ino := by
  rw [h.record]
  rcases h.block j below with ⟨low, old⟩ | ⟨-, k, -, -, new, fresh⟩
  · rw [old] at mapped
    by_cases zero : a = 0
    · rw [zero]
      exact volume.record.symm
    · exact (volume.data j a low mapped zero).1
  · obtain rfl := Option.some.inj (new.symm.trans mapped)
    exact fresh.record

/-- An old block has its data. -/
theorem old_data (h : Extended s u ino e) (volume : Volume s ino) {j : Nat} (low : j < (s.itable ino).nblock) (below : j < e) :
    (u.view ino).block j = (s.view ino).block j := by
  rcases h.block j below with ⟨-, old⟩ | ⟨high, -⟩
  swap
  · omega
  simp only [Fs.view, old]
  cases mapped : s.bmap ino j with
  | none => rfl
  | some a =>
    rw [Option.map_some, Option.map_some]
    refine congrArg some ?_
    by_cases zero : a = 0
    · rw [zero]
      exact h.disk 0 volume.bitmap.symm volume.record.symm
    · obtain ⟨ne, ne', -⟩ := volume.data j a low mapped zero
      exact h.disk a ne' ne

/-- A reader sees every byte outside the new blocks as before. -/
theorem one (h : Extended s u ino e) (volume : Volume s ino) (direct : e ≤ 12) (more : (s.itable ino).nblock < e)
    {k : Nat} (out : k < (s.itable ino).nblock * 1024 ∨ e * 1024 ≤ k) : (u.view ino).one k = (s.view ino).one k := by
  have old : (s.view ino).nblock = (s.itable ino).nblock := rfl
  have new : (u.view ino).nblock = e := h.count
  have reach : ∀ (t : Fs) j, j < 12 → (t.view ino).block j ≠ none := fun t j lt none => by
    simp [Fs.view, t.bmap_direct ino lt] at none
  refine FileView.one_congr ?_ (fun lt => ?_) (fun lt => ?_) ?_
  · omega
  · rw [h.old_data volume (by omega) (by omega)]
  · simp only [FileView.byteAt]
    rw [h.old_data volume (by omega) (by omega)]
  · refine iff_of_false ?_ ?_
    · rintro ⟨lt, block⟩
      exact reach u _ (by omega) block
    · rintro ⟨lt, block⟩
      exact reach s _ (by omega) block

end Extended

/-- With blocks to add, the loop starts once they have been added. -/
theorem Extended.prepared {off n : Nat} (h : Extended s u ino ((off + n) / 1024)) (volume : Volume s ino)
    (run : growTo ino ((off + n) / 1024) (s.resize ino (off + n)) = .ok ((), u))
    (size : (u.itable ino).size.toNat = max (s.itable ino).size.toNat (off + n)) (mine : s.Mine ino off n) :
    Prepared s u ino off n := by
  refine ⟨run, h.coherent, h.spare, h.sb, size, fun j ge lt below => ?_, ?_, ?_, ?_, fun j a lt mapped => ?_⟩
  · rw [h.count] at below ⊢
    exact h.own volume mine ge lt below
  · simp only [Fs.RecordFits, Fs.recordOff, h.sb, h.inum]
    exact volume.fits
  · rw [h.record]
    exact volume.record
  · rw [h.record, h.map]
    exact volume.record_map
  · exact h.data volume (h.count ▸ lt) mapped

/-- A byte outside the run, in any block of the file. -/
theorem Wrote.kept {lo hi n : Nat} {val : Nat → BitVec 8} (w : Wrote s t ino lo hi val)
    (own : ∀ j, j * 1024 < hi → lo < (j + 1) * 1024 → j < n ∧ s.Own ino n j) {j : Nat} {a : BitVec 32} (x : Fin BUFSIZE)
    (below : j < n) (mapped : s.bmap ino j = some a) (out : j * 1024 + (x : Nat) < lo ∨ hi ≤ j * 1024 + x) :
    t.disk a x = s.disk a x := by
  by_cases touched : j * 1024 < hi ∧ lo < (j + 1) * 1024
  · rw [w.inside j a x mapped touched.1 touched.2, if_neg (by omega)]
  · rw [w.outside a fun j' lt gt mapped' => ?_]
    obtain ⟨-, owned⟩ := own j' lt gt
    exact (owned a mapped').2.2 j below (fun e => touched (e ▸ ⟨lt, gt⟩)) mapped

/-- With every block in reach, a prepared write returns. When it starts inside a block and
runs past it, the last byte of its range stays as it was. -/
theorem Prepared.returns {off n : BitVec 64} (h : Prepared s u ino off.toNat n.toNat) (size : s.sb.bsize = 1024#32)
    (le : off.toNat ≤ (s.itable ino).size.toNat) (nowrap : off.toNat + n.toNat < 2 ^ 32)
    (reach : ∀ j, off.toNat / 1024 ≤ j → j ≤ (off.toNat + n.toNat) / 1024 → j < (u.itable ino).nblock → u.bmap ino j ≠ none)
    (buf : Nat → BitVec 8) :
    ∃ t, ext2WInode ino buf off n s = .ok ((n.setWidth 32).toInt, t) ∧ Coherent t ∧ t.Spare ∧ t.sb = u.sb ∧
      t.itable = u.itable ∧ t.bmap ino = u.bmap ino ∧
      (¬ Aligned off.toNat n.toNat → ∀ j a (x : Fin BUFSIZE), j < (u.itable ino).nblock → u.bmap ino j = some a →
        j * 1024 + x + 1 = off.toNat + n.toNat → t.disk a x = u.disk a x) := by
  rw [ext2WInode_eq s ino buf size le nowrap, FsM.bind_of_ok h.run, FsM.bind_of_ok FsM.get_run]
  generalize hoff : off.toNat = o at *
  generalize hn : n.toNat = k at *
  -- the loop, and the byte it leaves
  have loop : ∃ v, writeBlocks ino buf 1024 ((o + k) / 1024) ((u.itable ino).nblock - o / 1024) (o / 1024) k (o % 1024) 0 u =
      .ok ((), v) ∧ Coherent v ∧ v.Spare ∧ v.sb = u.sb ∧ v.itable = u.itable ∧ v.bmap ino = u.bmap ino ∧
      (¬ Aligned o k → ∀ j a (x : Fin BUFSIZE), j < (u.itable ino).nblock → u.bmap ino j = some a →
        j * 1024 + x + 1 = o + k → v.disk a x = u.disk a x) := by
    cases count : (u.itable ino).nblock - o / 1024 with
    | zero => exact ⟨u, rfl, h.coherent, h.spare, rfl, rfl, rfl, fun _ _ _ _ _ _ _ => rfl⟩
    | succ left =>
      have lt : o % 1024 < 1024 := by omega
      have start : o / 1024 * 1024 + o % 1024 = o := by omega
      rcases h.coherent.writeBlocks_split h.spare ino ((o + k) / 1024) (u.itable ino).nblock left k buf lt (by omega)
        (by omega) (fun j ge lt' inside => h.own j ge (by omega) (by omega)) with ⟨w, v, run, first, second, -⟩ | ⟨-, j, ge, lt', none⟩
      · refine ⟨v, run, second.coherent, second.spare, second.sb.trans first.sb, second.itable.trans first.itable,
          second.bmap.trans first.bmap, fun spill j a x below mapped last => ?_⟩
        have spill : o % 1024 ≠ 0 ∧ 1024 < o % 1024 + k := by
          unfold Aligned at spill
          omega
        rw [second.kept (fun j' lt' gt' => ⟨by omega, first.own (h.own j' (by omega) (by omega) (by omega))⟩) x below
          (by rw [first.bmap]; exact mapped) (.inr (by omega))]
        exact first.kept (fun j' lt' gt' => ⟨by omega, h.own j' (by omega) (by omega) (by omega)⟩) x below mapped
          (.inr (by omega))
      · exact absurd none (reach j ge (by omega) (by omega))
  obtain ⟨v, run, coherent, spare, sb, itable, bmap, last⟩ := loop
  have same : v.record ino = u.record ino := by simp only [Fs.record, sb, itable]
  obtain ⟨t, sync, coherent', spare', sb', itable', disk⟩ := coherent.inodeSync_ok spare
    (by simp only [Fs.RecordFits, Fs.recordOff, sb, itable]; exact h.fits) (by rw [same]; exact h.record)
  rw [same] at disk
  refine ⟨t, ?_, coherent', spare', sb'.trans sb, itable'.trans itable, ?_, fun spill j a x below mapped at_end => ?_⟩
  · rw [FsM.bind_of_ok run, FsM.bind_of_ok sync]
    rfl
  · rw [← bmap]
    refine Fs.bmap_congr (by rw [itable']) ?_
    rw [itable]
    exact disk _ h.record_map.symm
  · rw [disk a (h.data j a below mapped), last spill j a x below mapped at_end]

/-- What is read back after a buffer of equal bytes has been written. -/
theorem Prepared.read_constant {off n : BitVec 64} (h : Prepared s u ino off.toNat n.toNat) (size : s.sb.bsize = 1024#32)
    (le : off.toNat ≤ (s.itable ino).size.toNat) (small : n.toNat < 2 ^ 31) (nowrap : off.toNat + n.toNat < 2 ^ 32)
    (reach : ∀ j, off.toNat / 1024 ≤ j → j ≤ (off.toNat + n.toNat) / 1024 → j < (u.itable ino).nblock → u.bmap ino j ≠ none)
    (back : ReadsBack s ino off n) (b : BitVec 8) :
    ∃ t : Fs, t.bmap ino = u.bmap ino ∧
      (¬ Aligned off.toNat n.toNat → ∀ j a (x : Fin BUFSIZE), j < (u.itable ino).nblock → u.bmap ino j = some a →
        j * 1024 + x + 1 = off.toNat + n.toNat → t.disk a x = u.disk a x) ∧
      (t.view ino).bytes off.toNat (min n.toNat ((u.itable ino).nblock * 1024 - off.toNat)) = List.replicate n.toNat b := by
  obtain ⟨t, run, coherent, spare, sb, itable, bmap, last⟩ := h.returns size le nowrap reach fun _ => b
  refine ⟨t, bmap, last, ?_⟩
  rw [int_of_small small] at run
  obtain ⟨⟨v, again⟩, -⟩ := back _ _ t run (Int.natCast_nonneg _)
  have bsize : t.sb.bsize.toNat = 1024 := by rw [sb, h.sb, size]; rfl
  have number : BitVec.ofInt 64 (n.toNat : Int) = BitVec.ofNat 64 n.toNat := BitVec.ofInt_natCast ..
  have off_eq : off = BitVec.ofNat 64 off.toNat := by rw [BitVec.ofNat_toNat, BitVec.setWidth_eq]
  have count : (t.view ino).nblock = (u.itable ino).nblock := by simp only [Fs.view, itable]
  have size' : (t.view ino).size = max (s.itable ino).size.toNat (off.toNat + n.toNat) := by
    simp only [Fs.view, itable, h.size]
  have bound := (s.itable ino).size.isLt
  have small' : (t.view ino).size < 2 ^ 32 := by omega
  have inside : off.toNat + n.toNat ≤ (t.view ino).size := by omega
  have read := (t.view ino).read_bytes small' inside fun j ge le lt => by
    rw [count] at lt
    simp only [Fs.view, bmap, ne_eq, Option.map_eq_none_iff]
    exact reach j ge le lt
  rw [number, coherent.ext2ReadInode_eq spare, bsize, off_eq, read, count] at again
  simp only [Except.map, Except.ok.injEq, Prod.mk.injEq] at again
  simpa using again.1.2

/-- A prepared write is read back only if it is aligned and the blocks hold its data. -/
theorem Prepared.read_back_only {off n : BitVec 64} (h : Prepared s u ino off.toNat n.toNat) (size : s.sb.bsize = 1024#32)
    (le : off.toNat ≤ (s.itable ino).size.toNat) (small : n.toNat < 2 ^ 31) (nowrap : off.toNat + n.toNat < 2 ^ 32)
    (reach : ∀ j, off.toNat / 1024 ≤ j → j ≤ (off.toNat + n.toNat) / 1024 → j < (u.itable ino).nblock → u.bmap ino j ≠ none)
    (back : ReadsBack s ino off n) :
    Aligned off.toNat n.toNat ∧ (0 < n.toNat → off.toNat + n.toNat ≤ (u.itable ino).nblock * 1024) := by
  have read := h.read_constant size le small nowrap reach back
  have held : 0 < n.toNat → off.toNat + n.toNat ≤ (u.itable ino).nblock * 1024 := fun pos => by
    obtain ⟨t, -, -, bytes⟩ := read 0
    have length := congrArg List.length bytes
    rw [FileView.bytes_length, List.length_replicate] at length
    omega
  refine ⟨?_, held⟩
  by_contra spill
  have pos : 0 < n.toNat := by
    unfold Aligned at spill
    omega
  have held := held pos
  -- the last byte of the range, which the loop does not come to
  obtain ⟨a, mapped⟩ := Option.ne_none_iff_exists'.1
    (reach ((off.toNat + n.toNat - 1) / 1024) (by omega) (by omega) (by omega))
  have inside : (off.toNat + n.toNat - 1) % 1024 < BUFSIZE := Nat.mod_lt _ (by decide)
  obtain ⟨t, bmap, last, bytes⟩ := read (u.disk a ⟨_, inside⟩ + 1)
  have kept := last spill _ a ⟨_, inside⟩ (by omega) mapped (by simp only; omega)
  have index : off.toNat + (n.toNat - 1) = off.toNat + n.toNat - 1 := by omega
  have byte : (t.view ino).byteAt (off.toNat + n.toNat - 1) = u.disk a ⟨_, inside⟩ := by
    simp only [FileView.byteAt, Fs.view, bmap, mapped, Option.map_some, Base.byte, inside, dif_pos, kept]
  have at_end := congrArg (fun l : List (BitVec 8) => l[n.toNat - 1]?) bytes
  have count : min n.toNat ((u.itable ino).nblock * 1024 - off.toNat) = n.toNat := by omega
  simp only [FileView.bytes, List.getElem?_map, count] at at_end
  rw [List.getElem?_range (by omega), List.getElem?_replicate_of_lt (by omega), Option.map_some, index, byte] at at_end
  simp at at_end

/-- The direct blocks and those of the indirect block. -/
theorem Fs.bmap_reach (s : Fs) (ino : InodeId) {j : Nat} (lt : j < 268) : s.bmap ino j ≠ none := Fs.bmap_reach_iff.2 lt

theorem Fs.Storable.reads_back {off n : BitVec 64} (h : s.Storable ino off.toNat n.toNat) (volume : Volume s ino)
    (le : off.toNat ≤ (s.itable ino).size.toNat) : ReadsBack s ino off n := by
  rcases h.room with room | ext
  · have prepared := volume.prepared_stay h.nowrap (.inl room.counted) h.mine
    refine prepared.reads_back volume h.block_size le h.small h.nowrap h.aligned ?_ fun k _ => Fs.resize_one ..
    constructor
    · rw [Fs.resize_nblock]
      exact room.counted
    · rw [Fs.resize_nblock]
      exact room.held
  · obtain ⟨u, run, extended, size⟩ := volume.extended h.block_size ext.toAdds
    have prepared := extended.prepared volume run size h.mine
    have whole := ext.whole
    have attached := ext.attached
    have more := ext.more
    refine prepared.reads_back volume h.block_size le h.small h.nowrap h.aligned ⟨extended.count.ge, fun _ => ?_⟩
      fun k out => extended.one volume ext.direct more (by omega)
    rw [extended.count]
    omega

/-- Blocks that are added past a gap come to light. -/
theorem Extended.attached {off n : BitVec 64} (h : Extended s u ino ((off.toNat + n.toNat) / 1024)) (volume : Volume s ino)
    (prepared : Prepared s u ino off.toNat n.toNat) (adds : s.Adds ino off.toNat n.toNat) (size : s.sb.bsize = 1024#32)
    (le : off.toNat ≤ (s.itable ino).size.toNat) (small : n.toNat < 2 ^ 31) (nowrap : off.toNat + n.toNat < 2 ^ 32)
    (back : ReadsBack s ino off n) : off.toNat ≤ (s.itable ino).nblock * 1024 := by
  have direct := adds.direct
  have more := adds.more
  by_contra gap
  obtain ⟨t, run, coherent, spare, sb, itable, bmap, -⟩ := prepared.returns size le nowrap
    (fun j _ le lt => u.bmap_reach ino (by omega)) fun _ => 0
  rw [int_of_small small] at run
  obtain ⟨-, others⟩ := back _ _ t run (Int.natCast_nonneg _)
  -- the first byte past the old blocks
  have same := others ((s.itable ino).nblock * 1024) (by omega) (.inl (by omega))
  rw [coherent.ext2ReadInode_one spare (by rw [sb, h.sb, size]) (by rw [itable, prepared.size]; omega),
    volume.coherent.ext2ReadInode_one volume.spare size (by omega)] at same
  have index : (s.itable ino).nblock * 1024 / 1024 = (s.itable ino).nblock := by omega
  have before : (s.view ino).one ((s.itable ino).nblock * 1024) = .ok (0, []) := by
    rw [FileView.one, index]
    exact if_pos le_rfl
  have after : ∃ b, (t.view ino).one ((s.itable ino).nblock * 1024) = .ok (1, [b]) := by
    have count : (t.view ino).nblock = (off.toNat + n.toNat) / 1024 := by
      rw [← h.count]
      simp only [Fs.view, itable]
    obtain ⟨a, mapped⟩ := Option.ne_none_iff_exists'.1 (u.bmap_reach ino (j := (s.itable ino).nblock) (by omega))
    have block : (t.view ino).block (s.itable ino).nblock = some (t.disk a) := by simp only [Fs.view, bmap, mapped, Option.map_some]
    rw [FileView.one, index, if_neg (by omega), block]
    simp only
    rw [if_neg (by omega)]
    exact ⟨_, rfl⟩
  obtain ⟨b, after⟩ := after
  rw [before, after] at same
  simp at same

theorem Fs.Ends.storable {off n : BitVec 64} (h : s.Ends ino off.toNat n.toNat) (volume : Volume s ino)
    (le : off.toNat ≤ (s.itable ino).size.toNat) (back : ReadsBack s ino off n) : s.Storable ino off.toNat n.toNat := by
  have stays : ((off.toNat + n.toNat) / 1024 ≤ (s.itable ino).nblock ∨ (s.itable ino).freeSlot = none ∧ 0 < n.toNat) →
      (∀ j, j ≤ (off.toNat + n.toNat) / 1024 → j < (s.itable ino).nblock → j < 268) →
      s.Storable ino off.toNat n.toNat := fun stay reach => by
    have prepared := volume.prepared_stay h.nowrap (stay.imp_right And.left) h.mine
    obtain ⟨aligned, held⟩ := prepared.read_back_only h.block_size le h.small h.nowrap (fun j _ le lt => by
      rw [Fs.resize_nblock] at lt
      exact Fs.bmap_reach _ ino (reach j le lt)) back
    rw [Fs.resize_nblock] at held
    refine ⟨h.block_size, h.small, h.nowrap, h.mine, aligned, .inl ⟨?_, held⟩⟩
    rcases stay with le | ⟨-, pos⟩
    · exact le
    · have := held pos
      omega
  rcases h.reach with ⟨le', lt⟩ | ⟨none, pos, few⟩ | adds
  · exact stays (.inl le') fun j le _ => by omega
  · exact stays (.inr ⟨none, pos⟩) fun j _ lt => by omega
  · obtain ⟨u, run, extended, size⟩ := volume.extended h.block_size adds
    have prepared := extended.prepared volume run size h.mine
    have attached := extended.attached volume prepared adds h.block_size le h.small h.nowrap back
    have direct := adds.direct
    have more := adds.more
    obtain ⟨aligned, held⟩ := prepared.read_back_only h.block_size le h.small h.nowrap
      (fun j _ le lt => u.bmap_reach ino (by omega)) back
    rw [extended.count] at held
    have whole : (off.toNat + n.toNat) % 1024 = 0 := by
      have := held (by omega)
      omega
    exact ⟨h.block_size, h.small, h.nowrap, h.mine, aligned, .inr ⟨adds, whole, attached⟩⟩

/-- The `int` of `ext2_w_inode` is -1 or the low half of the size. -/
theorem ext2WInode_result {buf : Nat → BitVec 8} {off n : BitVec 64} {m : Int} (run : ext2WInode ino buf off n s = .ok (m, t)) :
    m = -1 ∨ m = (n.setWidth 32).toInt := by
  obtain ⟨s₁, _, get₁, run⟩ := FsM.bind_ok.1 run
  split at run
  · simp only [FsM.pure_run, Except.ok.injEq, Prod.mk.injEq] at run
    exact .inl run.1.symm
  · obtain ⟨-, _, -, run⟩ := FsM.bind_ok.1 run
    split at run
    · simp at run
    · obtain ⟨-, _, -, run⟩ := FsM.bind_ok.1 run
      obtain ⟨_, _, -, run⟩ := FsM.bind_ok.1 run
      obtain ⟨-, _, -, run⟩ := FsM.bind_ok.1 run
      obtain ⟨-, _, -, run⟩ := FsM.bind_ok.1 run
      simp only [FsM.pure_run, Except.ok.injEq, Prod.mk.injEq] at run
      exact .inr run.1.symm

/-- A regular file with the given block count, whose first block is block 20. -/
def smallFile (size blocks : BitVec 32) : Inode :=
  { Inode.zero with
    mode := 0x81a4#16
    inum := 1#32
    size := size
    blocks := blocks
    block := fun k => if k = 0 ∧ blocks ≠ 0 then 20#32 else 0#32 }

/-- The small volume with that file in the first in-memory inode. -/
def smallFileFs (size blocks : BitVec 32) : Fs := (smallFs 1).setInode 0 fun _ => smallFile size blocks

theorem smallFileFs_volume (size blocks : BitVec 32) (one : (smallFile size blocks).nblock ≤ 1) :
    Volume (smallFileFs size blocks) 0 := by
  have inode : (smallFileFs size blocks).itable 0 = smallFile size blocks := Fs.setInode_self ..
  have sizes : (smallFs 1).sb.inode_size = 128#16 ∧ (smallFs 1).sb.inode_table = 4#32 := by
    constructor <;> simp [smallFs, superblockOf, le32, le16, byte, smallVolume, BUFSIZE]
  have per : (smallFs 1).sb.perBlock = 8 := by
    rw [Superblock.perBlock, sizes.1, (smallFs_sb 1).1]
    rfl
  have sb : (smallFileFs size blocks).sb = (smallFs 1).sb := rfl
  have first : ((smallFile size blocks).inum - 1).toNat = 0 := by simp [smallFile]
  have record : (smallFileFs size blocks).record 0 = 4#32 := by
    rw [Fs.record, Superblock.recordBlock, inode, first, sb, sizes.2, per]
    rfl
  have map : (smallFile size blocks).block 12 = 0#32 := by simp [smallFile]
  have bitmap : (smallFileFs size blocks).sb.block_bitmap = 3#32 := (smallFs_sb 1).2.1
  refine ⟨(smallFs_coherent 1).setInode .., ⟨0, 1, by decide, rfl, rfl⟩, ⟨?_, ?_, ?_⟩, ?_, ?_, ?_, ?_, fun j a lt mapped ne => ?_⟩
  · rw [sb, sizes.1]
    decide
  · rw [sb, per]
    decide
  · rw [Fs.recordOff, inode, first, sb, per, sizes.1]
    decide
  · rw [record]
    decide
  · rw [record, inode, map]
    decide
  · rw [bitmap]
    decide
  · rw [bitmap, inode, map]
    decide
  · rw [inode] at lt
    obtain rfl : j = 0 := by omega
    rw [Fs.bmap_direct _ _ (by decide), inode] at mapped
    have mapped := Option.some.inj mapped
    rw [record, bitmap, inode, map]
    simp only [smallFile] at mapped
    split at mapped
    · subst mapped
      decide
    · exact absurd mapped.symm ne

end ReadBack

end Aarch64Os.Kernel
