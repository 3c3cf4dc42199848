import Mathlib
import Aarch64Os.Kernel.Ext2.Inode

/-!
# What a reader of an inode sees

Behind the buffer cache and the block map, a file is its size, its block count and its
logical blocks. `ext2_read_inode` on a coherent cache with two free buffers depends on
nothing else and changes nothing.
-/

namespace Aarch64Os.Kernel
set_option autoImplicit false
open Base

/-- The disk block of logical block `i`, if the direct slots and the indirect block reach it. -/
def Fs.bmap (s : Fs) (ino : InodeId) (i : Nat) : Option (BitVec 32) :=
  if h : i < 12 then some ((s.itable ino).block ⟨i, direct_slot h⟩)
  else if 4 * (i - 12) + 4 ≤ BUFSIZE then some (le32 (s.disk ((s.itable ino).block 12)) (4 * (i - 12))) else none

/-- A file as its readers see it. -/
structure FileView where
  size : Nat
  nblock : Nat
  block : Nat → Option Block

/-- The file of an inode. -/
def Fs.view (s : Fs) (ino : InodeId) : FileView where
  size := (s.itable ino).size.toNat
  nblock := (s.itable ino).nblock
  block i := (s.bmap ino i).map s.disk

/-- The loop of `ext2_read_inode` on a file. -/
def FileView.readBlocks (v : FileView) (bsize lastblk : Nat) :
    Nat → Nat → Nat → Nat → Except Fault (List (BitVec 8))
  | 0, _, _, _ => .ok []
  | left + 1, i, size, ooff =>
    if i ≤ lastblk then
      match v.block i with
      | none => .error .undefined
      | some data =>
        if ooff + copySize bsize size ooff ≤ BUFSIZE then
          (v.readBlocks bsize lastblk left (i + 1) (size - copySize bsize size ooff) 0).map fun rest =>
            bytesAt data ooff (copySize bsize size ooff) ++ rest
        else .error .undefined
    else .ok []

/-- `ext2_read_inode` on a file. -/
def FileView.read (v : FileView) (bsize : Nat) (off size : BitVec 64) : Except Fault (Int × List (BitVec 8)) :=
  if off.toNat > v.size then .ok (-1, [])
  else
    let size := if (off + size).toNat > v.size then v.size - off.toNat else size.toNat
    if bsize = 0 then .error .undefined
    else
      let offblk := off.toNat / bsize % 2 ^ 32
      let lastblk := (size + off.toNat) % 2 ^ 64 / bsize % 2 ^ 32
      (v.readBlocks bsize lastblk (v.nblock - offblk) offblk size (off.toNat % bsize)).map fun bytes =>
        ((BitVec.ofNat 32 bytes.length).toInt, bytes)

section Map
variable {s : Fs} {ino : InodeId} {i : Nat}

/-- The block map reaches the direct slots and one indirect block. -/
theorem Fs.bmap_reach_iff : s.bmap ino i ≠ none ↔ i < 268 := by
  have bufsize : BUFSIZE = 1024 := rfl
  unfold Fs.bmap
  split
  · simp
    omega
  · split <;> simp <;> omega

theorem Fs.view_reach_iff : (s.view ino).block i ≠ none ↔ i < 268 := by
  have reach : s.bmap ino i ≠ none ↔ i < 268 := Fs.bmap_reach_iff
  rw [← reach]
  simp [Fs.view]

/-- `ext2_inode_block` of a mapped block returns a buffer with its data, held once more. -/
theorem Coherent.inodeBlock_ok (h : Coherent s) (spare : s.Spare) {a : BitVec 32} (mapped : s.bmap ino i = some a) :
    ∃ b, s.Slot b a ∧ ext2InodeBlock ino i s = .ok (b, s.hold b a (s.disk a)) := by
  unfold Fs.bmap at mapped
  unfold ext2InodeBlock
  rw [FsM.bind_of_ok FsM.get_run]
  split at mapped
  case isTrue lt =>
    obtain rfl := Option.some.inj mapped
    obtain ⟨b, slot, read⟩ := h.bioRead_ok (spare.room ((s.itable ino).block ⟨i, direct_slot lt⟩))
    exact ⟨b, slot, by rw [dif_pos lt, read]⟩
  case isFalse ge =>
  split at mapped
  case isFalse => simp at mapped
  case isTrue inside =>
    obtain rfl := Option.some.inj mapped
    obtain ⟨b, slot, read⟩ := h.bioRead_ok (spare.room ((s.itable ino).block 12))
    obtain ⟨d, slot', read'⟩ := (h.hold slot).bioRead_ok (spare.room_hold b ((s.itable ino).block 12)
      (le32 (s.disk ((s.itable ino).block 12)) (4 * (i - 12))) (s.disk ((s.itable ino).block 12)))
    obtain ⟨freed, second⟩ := h.free_first slot slot'
    refine ⟨d, second, ?_⟩
    rw [dif_neg ge, FsM.bind_of_ok read, FsM.bind_of_ok (bufData_hold ..), readIndirectBlock, if_pos inside,
      FsM.bind_of_ok read']
    exact FsM.bind_of_ok freed

/-- A block out of reach stops the kernel. -/
theorem Coherent.inodeBlock_none (h : Coherent s) (spare : s.Spare) (none : s.bmap ino i = none) :
    ext2InodeBlock ino i s = .error .undefined := by
  unfold Fs.bmap at none
  unfold ext2InodeBlock
  rw [FsM.bind_of_ok FsM.get_run]
  split at none
  case isTrue => simp at none
  case isFalse ge =>
  split at none
  case isTrue => simp at none
  case isFalse outside =>
    obtain ⟨b, slot, read⟩ := h.bioRead_ok (spare.room ((s.itable ino).block 12))
    rw [dif_neg ge, FsM.bind_of_ok read, FsM.bind_of_ok (bufData_hold ..), readIndirectBlock, if_neg outside]
    rfl

theorem copyOut_hold {b : BufId} {a : BitVec 32} {data : Block} {off len : Nat} (inside : off + len ≤ BUFSIZE) :
    copyOut b off len (s.hold b a data) = .ok (bytesAt data off len, s.hold b a data) := by
  rw [copyOut, FsM.bind_of_ok (Coherent.bufData_hold ..), if_pos inside]
  rfl

theorem copyOut_outside {b : BufId} {off len : Nat} (outside : ¬ off + len ≤ BUFSIZE) :
    copyOut b off len s = .error .undefined := by
  simp only [copyOut, bufData, if_neg outside]
  rfl

/-- The reading loop sees the file and nothing else. -/
theorem Coherent.readBlocks_eq (h : Coherent s) (spare : s.Spare) (ino : InodeId) (bsize lastblk left : Nat) :
    ∀ i size ooff, readBlocks ino bsize lastblk left i size ooff s =
      ((s.view ino).readBlocks bsize lastblk left i size ooff).map fun bytes => (bytes, s) := by
  induction left with
  | zero => intro i size ooff; rfl
  | succ left ih =>
    intro i size ooff
    rw [readBlocks, FileView.readBlocks]
    by_cases more : i ≤ lastblk
    · rw [if_pos more, if_pos more]
      cases mapped : s.bmap ino i with
      | none =>
        have data : (s.view ino).block i = none := by simp [Fs.view, mapped]
        rw [data]
        rw [FsM.bind_run, h.inodeBlock_none spare mapped]
        rfl
      | some a =>
        obtain ⟨b, slot, read⟩ := h.inodeBlock_ok spare mapped
        rw [FsM.bind_of_ok read]
        have data : (s.view ino).block i = some (s.disk a) := by simp [Fs.view, mapped]
        rw [data]
        by_cases inside : ooff + copySize bsize size ooff ≤ BUFSIZE
        · simp only
          rw [if_pos inside, FsM.bind_of_ok (copyOut_hold inside), FsM.bind_of_ok (h.free_hold slot)]
          rw [FsM.bind_run, ih]
          cases (s.view ino).readBlocks bsize lastblk left (i + 1) (size - copySize bsize size ooff) 0 <;> rfl
        · simp only
          rw [if_neg inside, FsM.bind_run, copyOut_outside inside]
          rfl
    · rw [if_neg more, if_neg more]
      rfl

/-- `ext2_read_inode` sees the file and nothing else. -/
theorem Coherent.ext2ReadInode_eq (h : Coherent s) (spare : s.Spare) (ino : InodeId) (off size : BitVec 64) :
    ext2ReadInode ino off size s = ((s.view ino).read s.sb.bsize.toNat off size).map fun r => (r, s) := by
  have size_eq : (s.itable ino).size.toNat = (s.view ino).size := rfl
  have nblock_eq : (s.itable ino).nblock = (s.view ino).nblock := rfl
  rw [ext2ReadInode, FsM.bind_of_ok FsM.get_run, FileView.read, size_eq, nblock_eq]
  by_cases past : off.toNat > (s.view ino).size
  · rw [if_pos past, if_pos past]
    rfl
  rw [if_neg past, if_neg past]
  by_cases zero : s.sb.bsize.toNat = 0
  · simp only [if_pos zero]
    rfl
  simp only [if_neg zero]
  rw [FsM.bind_run, h.readBlocks_eq spare]
  generalize FileView.readBlocks _ _ _ _ _ _ _ = bytes
  cases bytes <;> rfl

end Map

/-- Inside a block of 1024 bytes: what is left, up to the end of the block. -/
theorem copySize_eq {size ooff : Nat} (le : ooff ≤ 1024) : copySize 1024 size ooff = min size (1024 - ooff) := by
  unfold copySize
  simp only
  split <;> omega

namespace FileView
variable (v : FileView)

/-- Byte `k` of the file. -/
def byteAt (k : Nat) : BitVec 8 :=
  match v.block (k / 1024) with
  | none => 0
  | some data => byte data (k % 1024)

/-- `len` bytes of the file from `off` on. -/
def bytes (off len : Nat) : List (BitVec 8) := (List.range len).map fun x => v.byteAt (off + x)

theorem bytes_length (off len : Nat) : (v.bytes off len).length = len := by simp [bytes]

theorem bytes_append (off len len' : Nat) : v.bytes off (len + len') = v.bytes off len ++ v.bytes (off + len) len' := by
  simp [bytes, List.range_add, Nat.add_assoc]

/-- A piece of one block. -/
theorem bytesAt_eq {i off len : Nat} {data : Block} (block : v.block i = some data) (inside : off + len ≤ 1024) :
    bytesAt data off len = v.bytes (i * 1024 + off) len := by
  refine List.map_congr_left fun x mem => ?_
  have lt := List.mem_range.1 mem
  have index : (i * 1024 + off + x) / 1024 = i := by omega
  have rest : (i * 1024 + off + x) % 1024 = off + x := by omega
  simp only [byteAt, index, block, rest]

/-- The reading loop returns the bytes from its starting point to the end of its blocks,
or as many as are asked for. -/
theorem readBlocks_bytes (lastblk left : Nat) : ∀ i size ooff, ooff < 1024 →
    (∀ j, i ≤ j → j < min (i + left) (lastblk + 1) → v.block j ≠ none) →
    v.readBlocks 1024 lastblk left i size ooff =
      .ok (v.bytes (i * 1024 + ooff) (min size (min (i + left) (lastblk + 1) * 1024 - (i * 1024 + ooff)))) := by
  induction left with
  | zero =>
    intro i size ooff lt mapped
    have none : min size (min (i + 0) (lastblk + 1) * 1024 - (i * 1024 + ooff)) = 0 := by omega
    rw [none]
    rfl
  | succ left ih =>
    intro i size ooff lt mapped
    rw [readBlocks]
    by_cases more : i ≤ lastblk
    · obtain ⟨data, block⟩ := Option.ne_none_iff_exists'.1 (mapped i le_rfl (by omega))
      have size_eq : copySize 1024 size ooff = min size (1024 - ooff) := copySize_eq (Nat.le_of_lt lt)
      rw [if_pos more, block]
      simp only
      rw [if_pos (by rw [size_eq]; simp only [BUFSIZE]; omega),
        ih (i + 1) _ 0 (by omega) fun j le lt => mapped j (by omega) (by omega),
        v.bytesAt_eq block (by omega)]
      simp only [Except.map]
      by_cases all : size ≤ 1024 - ooff
      · have here : copySize 1024 size ooff = size := by omega
        have last : min size (min (i + (left + 1)) (lastblk + 1) * 1024 - (i * 1024 + ooff)) = size := by omega
        rw [here, last, Nat.sub_self, Nat.zero_min]
        simp [bytes]
      · have here : copySize 1024 size ooff = 1024 - ooff := by omega
        have next : (i + 1) * 1024 + 0 = i * 1024 + ooff + (1024 - ooff) := by omega
        rw [here, next, ← bytes_append]
        congr 2
        omega
    · have none : min size (min (i + (left + 1)) (lastblk + 1) * 1024 - (i * 1024 + ooff)) = 0 := by omega
      rw [if_neg more, none]
      rfl

/-- `ext2_read_inode` inside the file, in terms of its loop. -/
theorem read_inside {off len : Nat} (small : v.size < 2 ^ 32) (le : off + len ≤ v.size) :
    v.read 1024 (BitVec.ofNat 64 off) (BitVec.ofNat 64 len) =
      (v.readBlocks 1024 ((off + len) / 1024) (v.nblock - off / 1024) (off / 1024) len (off % 1024)).map fun bytes =>
        ((BitVec.ofNat 32 bytes.length).toInt, bytes) := by
  have off_eq : (BitVec.ofNat 64 off).toNat = off := by
    rw [BitVec.toNat_ofNat, Nat.mod_eq_of_lt]
    omega
  have len_eq : (BitVec.ofNat 64 len).toNat = len := by
    rw [BitVec.toNat_ofNat, Nat.mod_eq_of_lt]
    omega
  have sum_eq : (BitVec.ofNat 64 off + BitVec.ofNat 64 len).toNat = off + len := by
    rw [BitVec.toNat_add, off_eq, len_eq, Nat.mod_eq_of_lt]
    omega
  have last : (len + off) % 2 ^ 64 / 1024 % 2 ^ 32 = (off + len) / 1024 := by
    rw [Nat.add_comm, Nat.mod_eq_of_lt (by omega), Nat.mod_eq_of_lt (by omega)]
  have first : off / 1024 % 2 ^ 32 = off / 1024 := Nat.mod_eq_of_lt (by omega)
  rw [read, sum_eq, off_eq, len_eq, if_neg (by omega), if_neg (by omega), if_neg (by omega)]
  simp only [last, first]

/-- Reading inside the file, with the blocks in reach: the bytes up to the last block counted. -/
theorem read_bytes {off len : Nat} (small : v.size < 2 ^ 32) (le : off + len ≤ v.size)
    (mapped : ∀ j, off / 1024 ≤ j → j ≤ (off + len) / 1024 → j < v.nblock → v.block j ≠ none) :
    v.read 1024 (BitVec.ofNat 64 off) (BitVec.ofNat 64 len) =
      .ok ((BitVec.ofNat 32 (min len (v.nblock * 1024 - off))).toInt, v.bytes off (min len (v.nblock * 1024 - off))) := by
  have start : off / 1024 * 1024 + off % 1024 = off := by omega
  have count : min len (min (off / 1024 + (v.nblock - off / 1024)) ((off + len) / 1024 + 1) * 1024 - off) =
      min len (v.nblock * 1024 - off) := by omega
  rw [v.read_inside small le, v.readBlocks_bytes _ _ _ _ _ (by omega) fun j ge lt => mapped j ge (by omega) (by omega),
    start, count]
  simp only [Except.map, bytes_length]

/-- What a reader sees of byte `k`: nothing past the blocks counted, else the byte, where a
read that ends on a block boundary also looks at the next block. -/
def one (k : Nat) : Except Fault (Int × List (BitVec 8)) :=
  if v.nblock ≤ k / 1024 then .ok (0, [])
  else match v.block (k / 1024) with
    | none => .error .undefined
    | some data =>
      if (k + 1) % 1024 = 0 ∧ k / 1024 + 1 < v.nblock ∧ v.block (k / 1024 + 1) = none then .error .undefined
      else .ok (1, [byte data (k % 1024)])

/-- What a reader sees of byte `k` depends on the block count, that block, and whether the
next one is in reach. -/
theorem one_congr {v w : FileView} {k : Nat} (count : w.nblock ≤ k / 1024 ↔ v.nblock ≤ k / 1024)
    (reach : k / 1024 < v.nblock → (w.block (k / 1024) = none ↔ v.block (k / 1024) = none))
    (same : k / 1024 < v.nblock → w.byteAt k = v.byteAt k)
    (next : (k / 1024 + 1 < w.nblock ∧ w.block (k / 1024 + 1) = none) ↔
      (k / 1024 + 1 < v.nblock ∧ v.block (k / 1024 + 1) = none)) : w.one k = v.one k := by
  unfold one
  by_cases past : v.nblock ≤ k / 1024
  · rw [if_pos past, if_pos (count.2 past)]
  · have reach := reach (by omega)
    have same := same (by omega)
    rw [if_neg past, if_neg fun le => past (count.1 le)]
    unfold byteAt at same
    cases block : v.block (k / 1024) with
    | none => rw [reach.2 block]
    | some data =>
      cases block' : w.block (k / 1024) with
      | none => rw [reach.1 block'] at block; simp at block
      | some data' =>
        simp only [block, block'] at same
        simp only [next, same]

theorem read_one {k : Nat} (small : v.size < 2 ^ 32) (lt : k < v.size) :
    v.read 1024 (BitVec.ofNat 64 k) (BitVec.ofNat 64 1) = v.one k := by
  rw [v.read_inside small lt, one]
  by_cases past : v.nblock ≤ k / 1024
  · rw [if_pos past, Nat.sub_eq_zero_of_le past]
    rfl
  obtain ⟨left, count⟩ : ∃ left, v.nblock - k / 1024 = left + 1 := ⟨v.nblock - k / 1024 - 1, by omega⟩
  have here : copySize 1024 1 (k % 1024) = 1 := by rw [copySize_eq (by omega)]; omega
  rw [if_neg past, count, readBlocks, if_pos (by omega), here]
  cases block : v.block (k / 1024) with
  | none => rfl
  | some data =>
    simp only
    rw [if_pos (by simp only [BUFSIZE]; omega), Nat.sub_self]
    by_cases more : (k + 1) % 1024 = 0 ∧ k / 1024 + 1 < v.nblock
    · obtain ⟨left, rfl⟩ : ∃ n, left = n + 1 := ⟨left - 1, by omega⟩
      rw [readBlocks, if_pos (by omega)]
      cases next : v.block (k / 1024 + 1) with
      | none => simp [more, Except.map]
      | some data' =>
        -- the second round copies nothing
        have zero : copySize 1024 0 0 = 0 := rfl
        have done : v.readBlocks 1024 ((k + 1) / 1024) left (k / 1024 + 1 + 1) 0 0 = .ok [] := by
          cases left with
          | zero => rfl
          | succ left => rw [readBlocks, if_neg (by omega)]
        simp [zero, done, Except.map, bytesAt, BUFSIZE]
    · have done : v.readBlocks 1024 ((k + 1) / 1024) left (k / 1024 + 1) 0 0 = .ok [] := by
        cases left with
        | zero => rfl
        | succ left => rw [readBlocks, if_neg (by omega)]
      rw [done, if_neg fun both => more ⟨both.1, both.2.1⟩]
      simp [Except.map, bytesAt]

end FileView

end Aarch64Os.Kernel
