import Mathlib
import Aarch64Os.Kernel.Ext2.Resolve

/-!
# What reading a file returns

`ext2_read_inode` in every coherent state: it runs out of buffers, or it does what it does on
the file alone. On the file, each round of its loop copies what is left of the request up to the
end of a block, so the count it returns is known from the sizes: the request, the size of the
file, the blocks it counts and the blocks its map reaches.
-/

namespace Aarch64Os.Kernel
set_option autoImplicit false
open Base

section Buffers
variable {s t : Fs} {ino : InodeId} {i : Nat}

/-- `ext2_inode_block` panics for want of a buffer, stops out of reach, or returns the block. -/
theorem Coherent.inodeBlock_eq (h : Coherent s) (ino : InodeId) (i : Nat) :
    ext2InodeBlock ino i s = .error (.panic "buf") ∨
      s.bmap ino i = none ∧ ext2InodeBlock ino i s = .error .undefined ∨
        ∃ a b, s.bmap ino i = some a ∧ s.Slot b a ∧ ext2InodeBlock ino i s = .ok (b, s.hold b a (s.disk a)) := by
  unfold ext2InodeBlock Fs.bmap
  rw [FsM.bind_of_ok FsM.get_run]
  by_cases direct : i < 12
  · rw [dif_pos direct, dif_pos direct]
    obtain ⟨-, panic⟩ | ⟨b, slot, read⟩ := h.bioRead_eq ((s.itable ino).block ⟨i, direct_slot direct⟩)
    · exact .inl panic
    · exact .inr (.inr ⟨_, b, rfl, slot, read⟩)
  rw [dif_neg direct, dif_neg direct]
  obtain ⟨-, panic⟩ | ⟨b, slot, read⟩ := h.bioRead_eq ((s.itable ino).block 12)
  · left
    rw [FsM.bind_run, panic]
    rfl
  rw [FsM.bind_of_ok read, FsM.bind_of_ok (bufData_hold ..)]
  by_cases inside : 4 * (i - 12) + 4 ≤ BUFSIZE
  · rw [if_pos inside, readIndirectBlock, if_pos inside]
    obtain ⟨-, panic⟩ | ⟨d, slot', read'⟩ :=
      (h.hold slot).bioRead_eq (le32 (s.disk ((s.itable ino).block 12)) (4 * (i - 12)))
    · left
      rw [FsM.bind_run, panic]
      rfl
    · obtain ⟨freed, second⟩ := h.free_first slot slot'
      right
      right
      exact ⟨_, d, rfl, second, by rw [FsM.bind_of_ok read']; exact FsM.bind_of_ok freed⟩
  · right
    left
    rw [if_neg inside, readIndirectBlock, if_neg inside]
    exact ⟨rfl, rfl⟩

/-- The reading loop panics for want of a buffer, or sees the file and nothing else. -/
theorem Coherent.readBlocks_run (h : Coherent s) (ino : InodeId) (bsize lastblk left : Nat) : ∀ i size ooff,
    readBlocks ino bsize lastblk left i size ooff s = .error (.panic "buf") ∨
      readBlocks ino bsize lastblk left i size ooff s =
        ((s.view ino).readBlocks bsize lastblk left i size ooff).map fun bytes => (bytes, s) := by
  induction left with
  | zero =>
    intro i size ooff
    right
    rfl
  | succ left ih =>
    intro i size ooff
    rw [readBlocks, FileView.readBlocks]
    by_cases more : i ≤ lastblk
    case neg =>
      right
      rw [if_neg more, if_neg more]
      rfl
    rw [if_pos more, if_pos more]
    obtain panic | ⟨mapped, stops⟩ | ⟨a, b, mapped, slot, read⟩ := h.inodeBlock_eq ino i
    · left
      rw [FsM.bind_run, panic]
      rfl
    · right
      have data : (s.view ino).block i = none := by simp [Fs.view, mapped]
      rw [data, FsM.bind_run, stops]
      rfl
    have data : (s.view ino).block i = some (s.disk a) := by simp [Fs.view, mapped]
    rw [data, FsM.bind_of_ok read]
    simp only
    by_cases inside : ooff + copySize bsize size ooff ≤ BUFSIZE
    · rw [if_pos inside, FsM.bind_of_ok (copyOut_hold inside), FsM.bind_of_ok (h.free_hold slot), FsM.bind_run]
      obtain panic | same := ih (i + 1) (size - copySize bsize size ooff) 0
      · left
        rw [panic]
        rfl
      · right
        rw [same]
        cases (s.view ino).readBlocks bsize lastblk left (i + 1) (size - copySize bsize size ooff) 0 <;> rfl
    · right
      rw [if_neg inside, FsM.bind_run, copyOut_outside inside]
      rfl

/-- `ext2_read_inode` panics for want of a buffer, or sees the file and nothing else. -/
theorem Coherent.ext2ReadInode_run (h : Coherent s) (ino : InodeId) (off size : BitVec 64) :
    ext2ReadInode ino off size s = .error (.panic "buf") ∨
      ext2ReadInode ino off size s = ((s.view ino).read s.sb.bsize.toNat off size).map fun r => (r, s) := by
  have size_eq : (s.itable ino).size.toNat = (s.view ino).size := rfl
  have nblock_eq : (s.itable ino).nblock = (s.view ino).nblock := rfl
  rw [ext2ReadInode, FsM.bind_of_ok FsM.get_run, FileView.read, size_eq, nblock_eq]
  by_cases past : off.toNat > (s.view ino).size
  · right
    rw [if_pos past, if_pos past]
    rfl
  rw [if_neg past, if_neg past]
  by_cases zero : s.sb.bsize.toNat = 0
  · right
    simp only [if_pos zero]
    rfl
  simp only [if_neg zero]
  rw [FsM.bind_run]
  obtain panic | same := h.readBlocks_run ino s.sb.bsize.toNat _ _ _ _ _
  · left
    rw [panic]
    rfl
  · right
    rw [same]
    generalize FileView.readBlocks _ _ _ _ _ _ _ = bytes
    cases bytes <;> rfl

/-- What it returns is what it returns on the file. -/
theorem Coherent.ext2ReadInode_ok (h : Coherent s) {off size : BitVec 64} {r : Int × List (BitVec 8)}
    (run : ext2ReadInode ino off size s = .ok (r, t)) : (s.view ino).read s.sb.bsize.toNat off size = .ok r ∧ t = s := by
  obtain panic | same := h.ext2ReadInode_run ino off size
  · rw [panic] at run
    cases run
  · rw [same] at run
    cases read : (s.view ino).read s.sb.bsize.toNat off size with
    | error e =>
      rw [read] at run
      cases run
    | ok r' =>
      rw [read] at run
      cases run
      exact ⟨rfl, rfl⟩

end Buffers

/-- A round copies what is left, up to the end of its block. -/
theorem copySize_min {bsize size ooff : Nat} (le : ooff ≤ bsize) : copySize bsize size ooff = min size (bsize - ooff) := by
  unfold copySize
  simp only
  split <;> omega

/-- What holds of the blocks a loop visits holds of the first, and of those behind it. -/
theorem visits_cons {p : Nat → Prop} {i left last : Nat} (more : i ≤ last) :
    (∀ j, i ≤ j → j < i + (left + 1) → j ≤ last → p j) ↔ p i ∧ ∀ j, i + 1 ≤ j → j < i + 1 + left → j ≤ last → p j := by
  constructor
  · intro all
    exact ⟨all i le_rfl (by omega) more, fun j ge lt le => all j (by omega) (by omega) le⟩
  · intro ⟨here, rest⟩ j ge lt le
    obtain rfl | after := Nat.eq_or_lt_of_le ge
    · exact here
    · exact rest j after (by omega) le

/-- Behind a round, the request still ends where it did. -/
theorem copySize_end {bsize size ooff i j : Nat} (lt : ooff < bsize) (ge : i + 1 ≤ j) :
    (i + 1) * bsize + 0 + (size - copySize bsize size ooff) - j * bsize = i * bsize + ooff + size - j * bsize := by
  have copy : copySize bsize size ooff = min size (bsize - ooff) := copySize_min (Nat.le_of_lt lt)
  have above : (i + 1) * bsize ≤ j * bsize := Nat.mul_le_mul_right bsize ge
  have next : (i + 1) * bsize = i * bsize + bsize := Nat.succ_mul i bsize
  omega

/-- A copy ends with the request or with the block. -/
theorem copySize_here {bsize size ooff : Nat} (i : Nat) (lt : ooff < bsize) :
    ooff + copySize bsize size ooff = min (i * bsize + ooff + size - i * bsize) bsize := by
  have copy : copySize bsize size ooff = min size (bsize - ooff) := copySize_min (Nat.le_of_lt lt)
  omega

namespace FileView
variable (v : FileView)

/-- The loop comes to its end just when each block it visits is in reach and the copy out of it
stays inside the buffer. -/
theorem readBlocks_returns {bsize : Nat} (lastblk left : Nat) : ∀ i size ooff, ooff < bsize →
    ((∃ bytes, v.readBlocks bsize lastblk left i size ooff = .ok bytes) ↔
      ∀ j, i ≤ j → j < i + left → j ≤ lastblk →
        v.block j ≠ none ∧ min (i * bsize + ooff + size - j * bsize) bsize ≤ BUFSIZE) := by
  induction left with
  | zero =>
    intro i size ooff lt
    apply iff_of_true ⟨[], rfl⟩
    intro j le lt
    omega
  | succ left ih =>
    intro i size ooff lt
    rw [readBlocks]
    by_cases more : i ≤ lastblk
    case neg =>
      rw [if_neg more]
      apply iff_of_true ⟨[], rfl⟩
      intro j le _ _
      omega
    rw [if_pos more, visits_cons more, ← copySize_here i lt]
    cases block : v.block i with
    | none =>
      apply iff_of_false
      · simp
      · intro all
        exact all.1.1 rfl
    | some data =>
      have rest : (∃ bytes, v.readBlocks bsize lastblk left (i + 1) (size - copySize bsize size ooff) 0 = .ok bytes) ↔
          ∀ j, i + 1 ≤ j → j < i + 1 + left → j ≤ lastblk →
            v.block j ≠ none ∧ min (i * bsize + ooff + size - j * bsize) bsize ≤ BUFSIZE := by
        rw [ih (i + 1) (size - copySize bsize size ooff) 0 (by omega)]
        constructor <;> intro all j ge lt' last
        · rw [← copySize_end lt ge]
          exact all j ge lt' last
        · rw [copySize_end lt ge]
          exact all j ge lt' last
      rw [← rest]
      by_cases inside : ooff + copySize bsize size ooff ≤ BUFSIZE
      · simp only
        rw [if_pos inside]
        cases v.readBlocks bsize lastblk left (i + 1) (size - copySize bsize size ooff) 0 <;> simp [Except.map]
        exact inside
      · simp only
        rw [if_neg inside]
        apply iff_of_false
        · simp
        · intro all
          exact inside all.1.2

/-- The count: what is asked for, up to the last block visited. -/
theorem readBlocks_count {bsize : Nat} (lastblk left : Nat) : ∀ i size ooff bytes, ooff < bsize →
    v.readBlocks bsize lastblk left i size ooff = .ok bytes →
    bytes.length = min size (min (i + left) (lastblk + 1) * bsize - (i * bsize + ooff)) := by
  induction left with
  | zero =>
    intro i size ooff bytes lt run
    cases run
    have start : min (i + 0) (lastblk + 1) * bsize ≤ i * bsize := Nat.mul_le_mul_right bsize (by omega)
    rw [List.length_nil]
    omega
  | succ left ih =>
    intro i size ooff bytes lt run
    rw [readBlocks] at run
    by_cases more : i ≤ lastblk
    case neg =>
      rw [if_neg more] at run
      cases run
      have start : min (i + (left + 1)) (lastblk + 1) * bsize ≤ i * bsize := Nat.mul_le_mul_right bsize (by omega)
      rw [List.length_nil]
      omega
    rw [if_pos more] at run
    cases block : v.block i with
    | none =>
      rw [block] at run
      cases run
    | some data =>
      rw [block] at run
      simp only at run
      split at run
      case isFalse => cases run
      case isTrue inside =>
      cases step : v.readBlocks bsize lastblk left (i + 1) (size - copySize bsize size ooff) 0 with
      | error e =>
        rw [step] at run
        cases run
      | ok tail =>
        rw [step] at run
        cases run
        have copy : copySize bsize size ooff = min size (bsize - ooff) := copySize_min (Nat.le_of_lt lt)
        have tail_length := ih (i + 1) _ 0 tail (by omega) step
        have next : (i + 1) * bsize = i * bsize + bsize := Nat.succ_mul i bsize
        have same : min (i + 1 + left) (lastblk + 1) = min (i + (left + 1)) (lastblk + 1) := by omega
        have last : (i + 1) * bsize ≤ min (i + (left + 1)) (lastblk + 1) * bsize := Nat.mul_le_mul_right bsize (by omega)
        have here : (bytesAt data ooff (copySize bsize size ooff)).length = copySize bsize size ooff := by simp [bytesAt]
        rw [List.length_append, tail_length, here, same]
        omega

/-- No count is beyond what the block map reaches. -/
theorem readBlocks_small (reach : ∀ j, v.block j ≠ none → j < 268) {bsize : Nat} (lastblk left : Nat) : ∀ i size ooff bytes,
    v.readBlocks bsize lastblk left i size ooff = .ok bytes → bytes.length ≤ (268 - i) * 1024 := by
  induction left with
  | zero =>
    intro i size ooff bytes run
    cases run
    simp
  | succ left ih =>
    intro i size ooff bytes run
    rw [readBlocks] at run
    split at run
    case isFalse =>
      cases run
      simp
    case isTrue =>
    cases block : v.block i with
    | none =>
      rw [block] at run
      cases run
    | some data =>
      rw [block] at run
      simp only at run
      split at run
      case isFalse => cases run
      case isTrue inside =>
      cases step : v.readBlocks bsize lastblk left (i + 1) (size - copySize bsize size ooff) 0 with
      | error e =>
        rw [step] at run
        cases run
      | ok tail =>
        rw [step] at run
        cases run
        have bound := ih (i + 1) _ 0 tail step
        have lt := reach i (by simp [block])
        have here : (bytesAt data ooff (copySize bsize size ooff)).length = copySize bsize size ooff := by simp [bytesAt]
        have bufsize : BUFSIZE = 1024 := rfl
        rw [List.length_append, here]
        omega

/-- `ext2_read_inode` where `off + size` does not wrap: the loop for what is left of the file. -/
theorem read_clamped {bsize : Nat} (pos : 0 < bsize) (small : v.size < 2 ^ 32) {off size : BitVec 64} (le : off.toNat ≤ v.size)
    (fits : off.toNat + size.toNat < 2 ^ 64) :
    v.read bsize off size =
      (v.readBlocks bsize ((off.toNat + min size.toNat (v.size - off.toNat)) / bsize) (v.nblock - off.toNat / bsize)
        (off.toNat / bsize) (min size.toNat (v.size - off.toNat)) (off.toNat % bsize)).map fun bytes =>
          ((BitVec.ofNat 32 bytes.length).toInt, bytes) := by
  have sum : (off + size).toNat = off.toNat + size.toNat := by rw [BitVec.toNat_add, Nat.mod_eq_of_lt fits]
  have clamp : (if off.toNat + size.toNat > v.size then v.size - off.toNat else size.toNat) = min size.toNat (v.size - off.toNat) := by
    split <;> omega
  have first : off.toNat / bsize % 2 ^ 32 = off.toNat / bsize := Nat.mod_eq_of_lt (by
    have := Nat.div_le_self off.toNat bsize
    omega)
  have last : (min size.toNat (v.size - off.toNat) + off.toNat) % 2 ^ 64 / bsize % 2 ^ 32 =
      (off.toNat + min size.toNat (v.size - off.toNat)) / bsize := by
    have sum' : (min size.toNat (v.size - off.toNat) + off.toNat) % 2 ^ 64 = off.toNat + min size.toNat (v.size - off.toNat) := by
      rw [Nat.add_comm]
      exact Nat.mod_eq_of_lt (by omega)
    have below := Nat.div_le_self (off.toNat + min size.toNat (v.size - off.toNat)) bsize
    rw [sum']
    exact Nat.mod_eq_of_lt (by omega)
  rw [read, sum, if_neg (by omega), clamp]
  simp only [if_neg (by omega : ¬ bsize = 0), first, last]

/-- Where it wraps, the request is not cut, and the last block is the one the sum falls into. -/
theorem read_wrapped {bsize : Nat} (pos : 0 < bsize) (small : v.size < 2 ^ 32) {off size : BitVec 64} (le : off.toNat ≤ v.size)
    (wraps : 2 ^ 64 ≤ off.toNat + size.toNat) :
    v.read bsize off size =
      (v.readBlocks bsize ((off.toNat + size.toNat - 2 ^ 64) / bsize) (v.nblock - off.toNat / bsize)
        (off.toNat / bsize) size.toNat (off.toNat % bsize)).map fun bytes =>
          ((BitVec.ofNat 32 bytes.length).toInt, bytes) := by
  have below := size.isLt
  have wrapped : (off.toNat + size.toNat) % 2 ^ 64 = off.toNat + size.toNat - 2 ^ 64 := by omega
  have first : off.toNat / bsize % 2 ^ 32 = off.toNat / bsize := Nat.mod_eq_of_lt (by
    have := Nat.div_le_self off.toNat bsize
    omega)
  have last : (off.toNat + size.toNat - 2 ^ 64) / bsize % 2 ^ 32 = (off.toNat + size.toNat - 2 ^ 64) / bsize := Nat.mod_eq_of_lt (by
    have := Nat.div_le_self (off.toNat + size.toNat - 2 ^ 64) bsize
    omega)
  have uncut : (if off.toNat + size.toNat - 2 ^ 64 > v.size then v.size - off.toNat else size.toNat) = size.toNat :=
    if_neg (by omega)
  rw [read, BitVec.toNat_add, wrapped, if_neg (by omega), uncut]
  simp only [if_neg (by omega : ¬ bsize = 0), first]
  rw [Nat.add_comm size.toNat, wrapped, last]

/-- The blocks the file spans: `ceil(size / bsize)`. -/
def nblocks (bsize : Nat) : Nat := (v.size + bsize - 1) / bsize

/-- A read of a file whose blocks are counted and in reach. -/
theorem read_whole (small : v.size < 2 ^ 32) (reach : ∀ j < 268, v.block j ≠ none) (few : v.nblocks 1024 < 268)
    (counted : v.nblocks 1024 ≤ v.nblock) {off len : BitVec 64} (inside : off.toNat ≤ v.size)
    (fits : off.toNat + len.toNat < 2 ^ 64) :
    v.read 1024 off len =
      .ok ((min len.toNat (v.size - off.toNat) : Nat), v.bytes off.toNat (min len.toNat (v.size - off.toNat))) := by
  unfold nblocks at few counted
  have start : off.toNat / 1024 * 1024 + off.toNat % 1024 = off.toNat := by omega
  -- what the loop visits covers the request
  have count : min (min len.toNat (v.size - off.toNat))
      (min (off.toNat / 1024 + (v.nblock - off.toNat / 1024))
        ((off.toNat + min len.toNat (v.size - off.toNat)) / 1024 + 1) * 1024 - off.toNat) =
      min len.toNat (v.size - off.toNat) := by omega
  rw [v.read_clamped (by decide) small inside fits, v.readBlocks_bytes _ _ _ _ _ (by omega) fun j ge lt => reach j (by omega),
    start, count]
  simp only [Except.map, bytes_length]
  congr 2
  rw [BitVec.toInt_eq_toNat_of_lt, BitVec.toNat_ofNat, Nat.mod_eq_of_lt]
  · omega
  · rw [BitVec.toNat_ofNat, Nat.mod_eq_of_lt] <;> omega

end FileView

/-- **What `ext2_read_inode` returns.** On a file whose blocks are in reach of the map and
counted, a read from inside the file returns what is asked for up to the end of the file, and
stores the bytes of the file from there on. With two free buffers it does return. -/
theorem readInode_returns_bytes {s : Fs} (ino : InodeId) (off len : BitVec 64) (h : Coherent s) (bsize : s.sb.bsize = 1024#32)
    (few : (s.view ino).nblocks s.sb.bsize.toNat < 12 + s.sb.bsize.toNat / 4)
    (counted : (s.view ino).nblocks s.sb.bsize.toNat ≤ (s.itable ino).nblock)
    (inside : off.toNat ≤ (s.itable ino).size.toNat) (fits : off.toNat + len.toNat < 2 ^ 64) :
    let count := min len.toNat ((s.itable ino).size.toNat - off.toNat)
    (∀ r t, ext2ReadInode ino off len s = .ok (r, t) → r = ((count : Int), (s.view ino).bytes off.toNat count) ∧ t = s) ∧
      (s.Spare → ext2ReadInode ino off len s = .ok (((count : Int), (s.view ino).bytes off.toNat count), s)) := by
  intro count
  have size : s.sb.bsize.toNat = 1024 := by rw [bsize]; rfl
  rw [size] at few counted
  have read := (s.view ino).read_whole (s.itable ino).size.isLt (fun j lt => Fs.view_reach_iff.2 lt) few counted inside fits
  constructor
  · intro r t run
    obtain ⟨same, rfl⟩ := h.ext2ReadInode_ok run
    rw [size, read] at same
    exact ⟨(Except.ok.inj same).symm, rfl⟩
  · intro spare
    rw [h.ext2ReadInode_eq spare, size, read]
    rfl

/-- The small volume with letters in the file `f`: one block of them, and `size` bytes. -/
def noteVolume (size : BitVec 16) (bno : BitVec 32) : Block := fun i =>
  if bno = 4#32 ∧ (i : Nat) = 260 then leByte size 0
  else if bno = 4#32 ∧ (i : Nat) = 261 then leByte size 1
  else if bno = 4#32 ∧ (i : Nat) = 284 then 2#8
  else if bno = 4#32 ∧ (i : Nat) = 296 then 21#8
  else if bno = 21#32 then BitVec.ofNat 8 (97 + i % 26)
  else treeVolume bno i

/-- That volume, mounted. -/
def noteMount (size : BitVec 16) : Fs :=
  { Fs.boot (noteVolume size) with sb := superblockOf (noteVolume size 1#32) (noteVolume size 2#32) }

/-- And with the file in the first entry of the inode table. -/
def noteFs (size : BitVec 16) : Fs := (noteMount size).setInode 0 fun x => x.fillFrom 3#32 (noteVolume size 4#32) 256

theorem noteMount_mounted (size : BitVec 16) : ext2Init (Fs.boot (noteVolume size)) = .ok ((), noteMount size) :=
  Fs.boot_mounts (by simp [le16, byte, noteVolume, treeVolume, smallVolume, BUFSIZE])

theorem noteMount_sb (size : BitVec 16) : (noteMount size).sb.bsize = 1024#32 ∧ (noteMount size).sb.inode_size = 128#16 ∧
    (noteMount size).sb.inode_table = 4#32 := by
  refine ⟨?_, ?_, ?_⟩ <;>
    simp [noteMount, superblockOf, le32, le16, byte, noteVolume, treeVolume, smallVolume, BUFSIZE]

theorem noteMount_coherent (size : BitVec 16) : Coherent (noteMount size) :=
  ⟨fun _ _ => rfl, fun _ used => absurd rfl used, fun _ used => absurd rfl used, fun _ _ used => absurd rfl used⟩

theorem noteMount_records (size : BitVec 16) : (noteMount size).sb.Records := by
  obtain ⟨bsize, inode_size, -⟩ := noteMount_sb size
  constructor
  · exact bsize
  · rw [inode_size]
    decide
  · rw [inode_size]
    decide

/-- `ext2_get_inode` of the file. -/
theorem noteFs_loaded (size : BitVec 16) : ext2GetInode 3#32 (noteMount size) = .ok (some 0, noteFs size) := by
  obtain ⟨bsize, inode_size, inode_table⟩ := noteMount_sb size
  apply (noteMount_coherent size).ext2GetInode_load ⟨0, 1, by decide, rfl, rfl⟩ (noteMount_records size)
  have per : (noteMount size).sb.perBlock = 8 := by
    rw [Superblock.perBlock, bsize, inode_size]
    rfl
  have block : (noteMount size).sb.recordBlock 3#32 = 4#32 := by
    rw [Superblock.recordBlock, per, inode_table]
    rfl
  have off : (noteMount size).sb.recordOff 3#32 = 256 := by
    rw [Superblock.recordOff, per, inode_size]
    rfl
  have slot : (noteMount size).inodeSlot 3#32 = some (0, false) := by
    have absent : (List.range NINODE).find? (fun i => ((noteMount size).itable i).inum = 3#32) = none := by
      simp [noteMount, Fs.boot, Inode.zero]
    have first : (List.range NINODE).find? (fun i => ((noteMount size).itable i).ref = 0) = some 0 := rfl
    rw [Fs.inodeSlot, absent, first]
    rfl
  rw [Fs.load, slot, Option.map_some, block, off]
  rfl

theorem noteFs_coherent (size : BitVec 16) : Coherent (noteFs size) := (noteMount_coherent size).setInode ..

theorem noteFs_spare (size : BitVec 16) : (noteFs size).Spare := ⟨0, 1, by decide, rfl, rfl⟩

theorem noteFs_file : ((noteFs 10).itable 0).size = 10#32 ∧ ((noteFs 10).itable 0).nblock = 1 := by
  constructor <;> decide +kernel

/-- Twenty bytes from offset 6 of the file of ten. -/
theorem readInode_returns_bytes_note :
    ext2ReadInode 0 6#64 20#64 (noteFs 10) = .ok ((4, [103#8, 104#8, 105#8, 106#8]), noteFs 10) := by
  have size : ((noteFs 10).view 0).size = 10 := congrArg BitVec.toNat noteFs_file.1
  have bsize : (noteFs 10).sb.bsize = 1024#32 := (noteMount_sb 10).1
  have one : ((noteFs 10).view 0).nblocks (noteFs 10).sb.bsize.toNat = 1 := by
    rw [FileView.nblocks, size, bsize]
    rfl
  have main := (readInode_returns_bytes 0 6#64 20#64 (noteFs_coherent 10) bsize (by rw [one, bsize]; decide)
    (by rw [one, noteFs_file.2]) (by rw [noteFs_file.1]; decide) (by decide)).2 (noteFs_spare 10)
  have bytes : ((noteFs 10).view 0).bytes 6 4 = [103#8, 104#8, 105#8, 106#8] := by decide +kernel
  rw [noteFs_file.1] at main
  exact main.trans (by rw [← bytes]; rfl)

end Aarch64Os.Kernel
