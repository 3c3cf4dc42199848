import Mathlib
import Aarch64Os.Kernel.BufReread
import Aarch64Os.Kernel.Ext2.Grow

/-!
# Inode numbers and the inode bitmap

The search of `find_free_ino` counts from 1 through bytes and low ones, the update of
`ibmp_write_bit` walks bytes from a number counted from 0. They agree on every bit of the
buffer; a search that is to go on behind the 1024 bytes of the buffer is undefined.
-/

namespace Aarch64Os.Kernel
set_option autoImplicit false
open Base

/-- With every byte `0xff`, the scan ends with the buffer or with the block, whichever comes first. -/
theorem scanChunk_full (data : Block) (left : Nat) : ∀ (i : Nat) (num : Int), i ≤ BUFSIZE →
    (∀ j : Fin BUFSIZE, i ≤ j → (j : Nat) < i + left → data j = 0xff#8) →
      scanChunk data left i num = if i + left ≤ BUFSIZE then .ok none else .error .undefined := by
  induction left with
  | zero =>
    intro i num le full
    rw [scanChunk, Nat.add_zero, if_pos le]
  | succ left ih =>
    intro i num le full
    rw [scanChunk]
    by_cases lt : i < BUFSIZE
    · have here : data ⟨i, lt⟩ = 0xff#8 := full ⟨i, lt⟩ le_rfl (by simp)
      rw [dif_pos lt, if_neg (not_not.2 here), ih (i + 1) (num + 8) lt fun j ge below => full j (by omega) (by omega),
        Nat.add_assoc, Nat.add_comm 1]
    · rw [dif_neg lt, if_neg (by omega)]

/-- The search of a full bitmap. -/
theorem findFree_full (first : Int) {bsize : BitVec 32} {data : Block} (full : Full bsize data) :
    findFree first bsize data = if bsize.toNat ≤ BUFSIZE then .ok (-1) else .error .undefined := by
  rw [findFree, scanChunk_full data bsize.toNat 0 first (Nat.zero_le _) fun j _ lt => full j (by omega), Nat.zero_add]
  split <;> rfl

/-- Where the block lies inside the buffer, every bit of a full bitmap is set. -/
theorem full_iff {bsize : BitVec 32} {data : Block} (small : bsize.toNat ≤ BUFSIZE) :
    Full bsize data ↔ ∀ k < 8 * bsize.toNat, bit data k = true := by
  constructor
  · intro full k lt
    have byte : k / 8 < BUFSIZE := by omega
    rw [bit, dif_pos byte, full ⟨k / 8, byte⟩ (show k / 8 < bsize.toNat by omega), getLsbD_0xff (by omega)]
  · intro bits j lt
    apply BitVec.eq_of_getLsbD_eq
    intro b small
    rw [← bit_byte data j small, bits _ (by omega), getLsbD_0xff small]

section UpToDate
variable {s : Fs} {b : BufId} {held : Bool}

/-- An allocation from a bitmap that is not full sets the first clear bit. -/
theorem Fs.UpToDate.allocBit_found (bno : Superblock → BitVec 32) {first : Int} (nonneg : 0 ≤ first) (h : s.UpToDate (bno s.sb))
    (slot : s.bcache.slot (bno s.sb) = some (b, held)) (some : ¬ Full s.sb.bsize (s.disk (bno s.sb))) :
    ∃ k : Nat, k < 8 * s.sb.bsize.toNat ∧ k < 8 * BUFSIZE ∧ bit (s.disk (bno s.sb)) k = false ∧
      (∀ j < k, bit (s.disk (bno s.sb)) j = true) ∧
      allocBit bno (findFree first) (writeBit first) s = .ok (first + k, s.put b (bno s.sb) (setBit (s.disk (bno s.sb)) k)) := by
  obtain ⟨k, free⟩ := findFree_found first some
  obtain ⟨neg, -⟩ | ⟨k', eq, lt, byte, clear, before⟩ := findFree_ok free
  · omega
  obtain rfl : k = k' := by omega
  refine ⟨k, lt, byte, clear, before, ?_⟩
  rw [allocBit, FsM.bind_of_ok FsM.get_run, FsM.bind_of_ok (h.bioRead slot), FsM.bind_of_ok (Coherent.bufData_hold ..),
    FsM.bind_of_ok (FsM.lift_ok free), if_neg (by omega), FsM.bind_of_ok (writeBit_hold lt byte),
    FsM.bind_of_ok (h.bioFree slot _)]
  rfl

/-- From a full one it returns -1 and leaves the buffer held, or runs out of the buffer. -/
theorem Fs.UpToDate.allocBit_full (bno : Superblock → BitVec 32) (first : Int) (h : s.UpToDate (bno s.sb))
    (slot : s.bcache.slot (bno s.sb) = some (b, held)) (full : Full s.sb.bsize (s.disk (bno s.sb))) :
    allocBit bno (findFree first) (writeBit first) s =
      if s.sb.bsize.toNat ≤ BUFSIZE then .ok (-1, s.hold b (bno s.sb) (s.disk (bno s.sb))) else .error .undefined := by
  rw [allocBit, FsM.bind_of_ok FsM.get_run, FsM.bind_of_ok (h.bioRead slot), FsM.bind_of_ok (Coherent.bufData_hold ..),
    findFree_full first full]
  split
  · rw [FsM.bind_of_ok (FsM.lift_ok rfl), if_pos (by decide)]
    rfl
  · rw [FsM.bind_run, FsM.lift_error rfl]
    rfl

end UpToDate

/-- The inode bitmap on the disk. -/
def Fs.inodeBitmap (s : Fs) : Block := s.disk s.sb.inode_bitmap

/-- Calls of `ext2_alloc_inum` in a row, with what they return. -/
inductive InumRun : Fs → List Int → Fs → Prop
  | nil (s : Fs) : InumRun s [] s
  | cons {s t u : Fs} {i : Int} {nums : List Int} : ext2AllocInum s = .ok (i, t) → InumRun t nums u → InumRun s (i :: nums) u

/-- What a call of `ext2_alloc_inum` is to do: return the least number whose bit was clear, set
that bit and no other, and return -1 just when all bits are set, with the bitmap as it was. -/
def InumRight (s : Fs) : Prop :=
  ∃ i t, ext2AllocInum s = .ok (i, t) ∧ (i = -1 ∨ 1 ≤ i) ∧
    (1 ≤ i → ∃ k : Nat, i = k + 1 ∧ k < 8 * s.sb.bsize.toNat ∧ bit s.inodeBitmap k = false ∧
      (∀ j < k, bit s.inodeBitmap j = true) ∧ ∀ j, bit t.inodeBitmap j = (decide (j = k) || bit s.inodeBitmap j)) ∧
    (i = -1 ↔ ∀ k < 8 * s.sb.bsize.toNat, bit s.inodeBitmap k = true) ∧
    (i = -1 → t.inodeBitmap = s.inodeBitmap)

/-- The bitmap can be read, from a buffer that shows what is on the disk. -/
structure BitmapReady (s : Fs) : Prop where
  upToDate : s.UpToDate s.sb.inode_bitmap
  slot : ∃ p, s.bcache.slot s.sb.inode_bitmap = some p

/-- What one call does. -/
inductive InumStep (s t : Fs) (i : Int) : Prop
  | marked (k : Nat) (number : i = k + 1) (lt : k < 8 * s.sb.bsize.toNat) (byte : k < 8 * BUFSIZE)
      (clear : bit s.inodeBitmap k = false) (before : ∀ j < k, bit s.inodeBitmap j = true)
      (bitmap : t.inodeBitmap = setBit s.inodeBitmap k)
  | full (none : i = -1) (all : Full s.sb.bsize s.inodeBitmap) (bitmap : t.inodeBitmap = s.inodeBitmap)

section Inum
variable {s t u : Fs} {i : Int} {nums : List Int}

/-- **One call** from a bitmap that can be read: it sets the first clear bit, or finds none, and
the bitmap can be read again; a full bitmap larger than the buffer stops it. -/
theorem BitmapReady.step (h : BitmapReady s) :
    (s.sb.bsize.toNat ≤ BUFSIZE ∨ ¬ Full s.sb.bsize s.inodeBitmap →
      ∃ i t, ext2AllocInum s = .ok (i, t) ∧ BitmapReady t ∧ t.sb = s.sb ∧ InumStep s t i) ∧
    (BUFSIZE < s.sb.bsize.toNat → Full s.sb.bsize s.inodeBitmap → ext2AllocInum s = .error .undefined) := by
  obtain ⟨⟨b, held⟩, slot⟩ := h.slot
  by_cases full : Full s.sb.bsize s.inodeBitmap
  · have call := Fs.UpToDate.allocBit_full Superblock.inode_bitmap 1 h.upToDate slot full
    constructor
    · intro cond
      rw [if_pos (cond.resolve_right (not_not.2 full))] at call
      obtain ⟨again, upToDate⟩ := Fs.upToDate_hold slot
      exact ⟨_, _, call, ⟨upToDate, _, again⟩, rfl, .full rfl full rfl⟩
    · intro large _
      rw [if_neg (by omega)] at call
      exact call
  · constructor
    · intro _
      obtain ⟨k, lt, byte, clear, before, call⟩ := Fs.UpToDate.allocBit_found Superblock.inode_bitmap Int.one_nonneg h.upToDate slot full
      have bitmap : (s.put b s.sb.inode_bitmap (setBit s.inodeBitmap k)).inodeBitmap = setBit s.inodeBitmap k :=
        Function.update_self ..
      exact ⟨1 + k, _, call, ⟨h.upToDate.put slot _, _, (h.upToDate.put_slot slot _ _).trans slot⟩, rfl,
        .marked k (by omega) lt byte clear before bitmap⟩
    · intro _ all
      exact absurd all full

/-- What the step says in terms of bits. -/
theorem InumStep.right (step : InumStep s t i) (small : s.sb.bsize.toNat ≤ BUFSIZE) (call : ext2AllocInum s = .ok (i, t)) :
    InumRight s := by
  refine ⟨i, t, call, ?_⟩
  cases step with
  | marked k number lt byte clear before bitmap =>
    refine ⟨.inr (by omega), fun _ => ⟨k, number, lt, clear, before, fun j => ?_⟩, ?_, fun none => ?_⟩
    · rw [bitmap, bit_setBit _ byte]
    · constructor
      · omega
      · intro all
        rw [all k lt] at clear
        cases clear
    · omega
  | full none all bitmap =>
    refine ⟨.inl none, fun ge => ?_, ?_, fun _ => bitmap⟩
    · omega
    · exact iff_of_true none ((full_iff small).1 all)

/-- Along a run the bitmap can be read, and no bit is cleared; the numbers returned had clear bits. -/
theorem BitmapReady.run (run : InumRun s nums t) (h : BitmapReady s) (small : s.sb.bsize.toNat ≤ BUFSIZE) :
    BitmapReady t ∧ t.sb = s.sb ∧ (∀ i ∈ nums, 1 ≤ i → bit s.inodeBitmap (i.toNat - 1) = false) ∧
      (nums.filter fun i => 1 ≤ i).Nodup := by
  induction run with
  | nil => exact ⟨h, rfl, fun i mem => by simp at mem, by simp⟩
  | @cons s t u i nums call _ ih =>
    obtain ⟨i', t', call', ready, sb, step⟩ := h.step.1 (.inl small)
    rw [call'] at call
    cases call
    obtain ⟨ready', sb', later, nodup⟩ := ih ready (by rw [sb]; exact small)
    refine ⟨ready', sb'.trans sb, ?_⟩
    cases step with
    | full none all bitmap =>
      rw [bitmap] at later
      constructor
      · intro j mem ge
        obtain rfl | mem := List.mem_cons.1 mem
        · omega
        · exact later j mem ge
      · rw [List.filter_cons_of_neg (by simp [none])]
        exact nodup
    | marked k number lt byte clear before bitmap =>
      have bits : ∀ j, bit t.inodeBitmap j = (decide (j = k) || bit s.inodeBitmap j) := fun j => by
        rw [bitmap, bit_setBit _ byte]
      constructor
      · intro j mem ge
        obtain rfl | mem := List.mem_cons.1 mem
        · have index : j.toNat - 1 = k := by omega
          rw [index, clear]
        · have after := later j mem ge
          rw [bits] at after
          exact (Bool.or_eq_false_iff.1 after).2
      · rw [List.filter_cons_of_pos (by simp; omega)]
        apply List.nodup_cons.2
        constructor
        · intro again
          -- its bit is set from now on
          have after := later i (List.mem_filter.1 again).1 (by omega)
          have index : i.toNat - 1 = k := by omega
          rw [index, bits] at after
          simp at after
        · exact nodup

/-- A block larger than the buffer: once the bits of the buffer are all set, the next call is undefined. -/
theorem BitmapReady.runs_out (n : Nat) : ∀ s : Fs, BitmapReady s → BUFSIZE < s.sb.bsize.toNat →
    (freeBits s.inodeBitmap).length = n → ∃ nums t, InumRun s nums t ∧ ext2AllocInum t = .error .undefined := by
  induction n with
  | zero =>
    intro s h large none
    have full : Full s.sb.bsize s.inodeBitmap := by
      by_contra some
      obtain ⟨k, found⟩ := findFree_found 0 some
      obtain ⟨neg, -⟩ | ⟨k', -, -, byte, clear, -⟩ := findFree_ok found
      · omega
      · have mem : k' ∈ freeBits s.inodeBitmap := List.mem_filter.2 ⟨List.mem_range.2 byte, by simp [clear]⟩
        rw [List.eq_nil_of_length_eq_zero none] at mem
        cases mem
    exact ⟨[], s, .nil s, h.step.2 large full⟩
  | succ n ih =>
    intro s h large some
    have notFull : ¬ Full s.sb.bsize s.inodeBitmap := by
      intro full
      obtain ⟨k, rest, free⟩ := List.exists_cons_of_length_eq_add_one some
      have mem : k ∈ freeBits s.inodeBitmap := by rw [free]; exact List.mem_cons_self
      obtain ⟨range, clear⟩ := List.mem_filter.1 mem
      have byte : k / 8 < BUFSIZE := by
        have lt := List.mem_range.1 range
        omega
      have ones := full ⟨k / 8, byte⟩ (show k / 8 < s.sb.bsize.toNat by omega)
      rw [bit, dif_pos byte, ones, getLsbD_0xff (by omega)] at clear
      simp at clear
    obtain ⟨i, t, call, ready, sb, step⟩ := h.step.1 (.inr notFull)
    cases step with
    | full none all bitmap => exact absurd all notFull
    | marked k number lt byte clear before bitmap =>
      have next := freeBits_setBit byte clear before
      rw [← bitmap] at next
      rw [next, List.length_cons] at some
      obtain ⟨nums, u, run, fails⟩ := ih t ready (by rw [sb]; exact large) (by omega)
      exact ⟨i :: nums, u, .cons call run, fails⟩

end Inum

/-- **Inode numbers and bitmap bits.** Every call of every sequence does what it is to do, and no
number is returned twice, just when the bitmap can be read and the block is not larger than the
buffer. -/
theorem alloc_inum_right_iff (s : Fs) (upToDate : s.UpToDate s.sb.inode_bitmap) :
    (∀ nums t, InumRun s nums t → InumRight t ∧ (nums.filter fun i => 1 ≤ i).Nodup) ↔
      s.Room s.sb.inode_bitmap ∧ s.sb.bsize.toNat ≤ BUFSIZE := by
  constructor
  · intro right
    obtain ⟨i, t, call, -⟩ := (right [] s (.nil s)).1
    have room : s.Room s.sb.inode_bitmap := by
      by_contra full
      rw [ext2AllocInum, allocBit, FsM.bind_of_ok FsM.get_run, FsM.bind_run, bioRead_full full] at call
      cases call
    refine ⟨room, ?_⟩
    by_contra large
    obtain ⟨nums, u, run, fails⟩ := BitmapReady.runs_out _ s ⟨upToDate, room.slot⟩ (by omega) rfl
    obtain ⟨i, v, call, -⟩ := (right nums u run).1
    rw [fails] at call
    cases call
  · rintro ⟨room, small⟩ nums t run
    obtain ⟨ready, sb, -, nodup⟩ := BitmapReady.run run ⟨upToDate, room.slot⟩ small
    have small' : t.sb.bsize.toNat ≤ BUFSIZE := by rw [sb]; exact small
    obtain ⟨i, u, call, -, -, step⟩ := ready.step.1 (.inl small')
    exact ⟨step.right small' call, nodup⟩

/-- The small volume with blocks of `1024 << log` bytes, and with its inode bitmap in block 5,
every byte of which is `bits`. -/
def bitmapVolume (log bits : BitVec 8) (bno : BitVec 32) : Block := fun i =>
  if bno = 1#32 ∧ (i : Nat) = 24 then log
  else if bno = 2#32 ∧ (i : Nat) = 4 then 5#8
  else if bno = 5#32 then bits
  else smallVolume 1 bno i

/-- That volume, mounted. -/
def bitmapFs (log bits : BitVec 8) : Fs :=
  { Fs.boot (bitmapVolume log bits) with sb := superblockOf (bitmapVolume log bits 1#32) (bitmapVolume log bits 2#32) }

theorem bitmapFs_mounted (log bits : BitVec 8) : ext2Init (Fs.boot (bitmapVolume log bits)) = .ok ((), bitmapFs log bits) :=
  Fs.boot_mounts (by simp [le16, byte, bitmapVolume, smallVolume, BUFSIZE])

theorem bitmapFs_bitmap (log bits : BitVec 8) : (bitmapFs log bits).inodeBitmap = fun _ => bits := by
  have block : (bitmapFs log bits).sb.inode_bitmap = 5#32 := by
    simp [bitmapFs, superblockOf, le32, le16, byte, bitmapVolume, BUFSIZE]
    rfl
  rw [Fs.inodeBitmap, block]
  rfl

theorem bitmapFs_ready (log bits : BitVec 8) : BitmapReady (bitmapFs log bits) where
  upToDate _ _ _ := .inl rfl
  slot := Fs.Room.slot ⟨0, .inr rfl⟩

/-- Blocks of 1024 bytes: the calls are right. -/
theorem alloc_inum_right_iff_small : ext2Init (Fs.boot (bitmapVolume 0 7#8)) = .ok ((), bitmapFs 0 7#8) ∧ InumRight (bitmapFs 0 7#8) := by
  have room : (bitmapFs 0 7#8).Room (bitmapFs 0 7#8).sb.inode_bitmap := ⟨0, .inr rfl⟩
  have small : (bitmapFs 0 7#8).sb.bsize.toNat ≤ BUFSIZE := by decide +kernel
  exact ⟨bitmapFs_mounted 0 7#8,
    ((alloc_inum_right_iff (bitmapFs 0 7#8) (bitmapFs_ready 0 7#8).upToDate).2 ⟨room, small⟩ [] _ (.nil _)).1⟩

/-- Blocks of 4096 bytes, with the first 1024 bytes of the bitmap all ones: the search leaves the buffer. -/
theorem alloc_inum_leaves_buffer : ext2Init (Fs.boot (bitmapVolume 2 0xff#8)) = .ok ((), bitmapFs 2 0xff#8) ∧
    (bitmapFs 2 0xff#8).sb.bsize = 4096#32 ∧ ext2AllocInum (bitmapFs 2 0xff#8) = .error .undefined ∧
    ¬ ∀ nums t, InumRun (bitmapFs 2 0xff#8) nums t → InumRight t ∧ (nums.filter fun i => 1 ≤ i).Nodup := by
  have bsize : (bitmapFs 2 0xff#8).sb.bsize = 4096#32 := by decide +kernel
  have full : Full (bitmapFs 2 0xff#8).sb.bsize (bitmapFs 2 0xff#8).inodeBitmap := by
    intro j _
    rw [bitmapFs_bitmap]
  have fails := (bitmapFs_ready 2 0xff#8).step.2 (by rw [bsize]; decide) full
  refine ⟨bitmapFs_mounted 2 0xff#8, bsize, fails, fun right => ?_⟩
  obtain ⟨i, t, call, -⟩ := (right [] _ (.nil _)).1
  rw [fails] at call
  cases call

end Aarch64Os.Kernel
