import Mathlib
import Aarch64Os.Base.Bitmap
import Aarch64Os.Kernel.Ext2.Super

/-!
# The two bitmaps (`kernel/ext2.c`)

The allocators search a bitmap for its first clear bit and set it. Bit `k` of the inode
bitmap stands for inode `k + 1`, and that is the number `ext2_alloc_inum` returns. Bit `k`
of the block bitmap stands for block `k + s_first_data_block`, but `ext2_alloc_block`
returns `k`.
-/

namespace Aarch64Os.Kernel
set_option autoImplicit false
open Base

/-- The scan of `find_free_ino` and `find_free_block` for a byte that is not `0xff`, with
what is left of the block size, the index and the number reached. -/
def scanChunk (data : Block) : Nat → Nat → Int → Except Fault (Option (BitVec 8 × Int))
  | 0, _, _ => .ok none
  | left + 1, i, num =>
    if h : i < BUFSIZE then
      if data ⟨i, h⟩ ≠ 0xff#8 then .ok (some (data ⟨i, h⟩, num)) else scanChunk data left (i + 1) (num + 8)
    else .error .undefined

/-- `for(; chunk & 1; chunk >>= 1)`: the low ones of a byte. -/
def lowOnes : Nat → BitVec 8 → Nat
  | 0, _ => 0
  | left + 1, chunk => if chunk.getLsbD 0 then lowOnes left (chunk >>> 1) + 1 else 0

/-- `find_free_ino` and `find_free_block` differ in the number they give to the first bit. -/
def findFree (first : Int) (bsize : BitVec 32) (data : Block) : Except Fault Int :=
  (scanChunk data bsize.toNat 0 first).map fun
    | none => -1
    | some (chunk, num) => num + lowOnes 8 chunk

/-- `find_free_ino`. -/
def findFreeIno : BitVec 32 → Block → Except Fault Int := findFree 1

/-- `find_free_block`. -/
def findFreeBlock : BitVec 32 → Block → Except Fault Int := findFree 0

/-- The search of `ibmp_write_bit` and `bbmp_write_bit` for the byte of a bit. -/
def findChunk : Nat → Nat → Int → Option (Nat × Int)
  | 0, _, _ => none
  | left + 1, chunkn, bitn => if bitn < 8 then some (chunkn, bitn) else findChunk left (chunkn + 1) (bitn - 8)

/-- `ibmp_write_bit` and `bbmp_write_bit`, for a number counted from `first`. A shift by a
negative amount is undefined. -/
def writeBit (first : Int) (bitmap : BufId) (num : Int) (val : Bool) : FsM Int := do
  let s ← get
  match findChunk s.sb.bsize.toNat 0 (num - first) with
  | none => pure (-1)
  | some (chunkn, bitn) =>
    let data ← bufData bitmap
    if h : chunkn < BUFSIZE ∧ 0 ≤ bitn then
      let c := data ⟨chunkn, h.1⟩
      let mask := 1#8 <<< bitn.toNat
      setBufData bitmap (Function.update data ⟨chunkn, h.1⟩ (if val then c ||| mask else c &&& ~~~mask))
      bioWrite bitmap
      pure 0
    else throw .undefined

/-- `ibmp_write_bit`. -/
def ibmpWriteBit : BufId → Int → Bool → FsM Int := writeBit 1

/-- `bbmp_write_bit`. -/
def bbmpWriteBit : BufId → Int → Bool → FsM Int := writeBit 0

/-- `ext2_alloc_block` and `ext2_alloc_inum`; a full bitmap is left held. -/
def allocBit (bno : Superblock → BitVec 32) (find : BitVec 32 → Block → Except Fault Int)
    (write : BufId → Int → Bool → FsM Int) : FsM Int := do
  let s ← get
  let bitmap ← bioRead (bno s.sb)
  let data ← bufData bitmap
  let num ← find s.sb.bsize data
  if num < 0 then pure (-1)
  else
    let _ ← write bitmap num true
    bioFree bitmap
    pure num

/-- `ext2_alloc_block`. -/
def ext2AllocBlock : FsM Int := allocBit Superblock.block_bitmap findFreeBlock bbmpWriteBit

/-- `ext2_alloc_inum`. -/
def ext2AllocInum : FsM Int := allocBit Superblock.inode_bitmap findFreeIno ibmpWriteBit

/-- The low ones of a byte are ones, and the bit after them is not. -/
theorem lowOnes_spec (left : Nat) : ∀ chunk : BitVec 8, lowOnes left chunk ≤ left ∧
    (∀ j < lowOnes left chunk, chunk.getLsbD j = true) ∧
    (lowOnes left chunk < left → chunk.getLsbD (lowOnes left chunk) = false) := by
  induction left with
  | zero => intro chunk; simp [lowOnes]
  | succ left ih =>
    intro chunk
    rw [lowOnes]
    split
    case isTrue one =>
      obtain ⟨le, ones, zero⟩ := ih (chunk >>> 1)
      refine ⟨by omega, fun j lt => ?_, fun lt => ?_⟩
      · cases j with
        | zero => exact one
        | succ j =>
          have := ones j (by omega)
          rwa [BitVec.getLsbD_ushiftRight, Nat.add_comm] at this
      · have := zero (by omega)
        rwa [BitVec.getLsbD_ushiftRight, Nat.add_comm] at this
    case isFalse zero => simpa using zero

theorem getLsbD_0xff {j : Nat} (lt : j < 8) : (0xff#8).getLsbD j = true := by
  rw [show 0xff#8 = BitVec.allOnes 8 from rfl, BitVec.getLsbD_allOnes, decide_eq_true lt]

/-- A byte with a clear bit: the low ones lead to it. -/
theorem lowOnes_lt {chunk : BitVec 8} (h : chunk ≠ 0xff#8) : lowOnes 8 chunk < 8 := by
  obtain ⟨le, ones, -⟩ := lowOnes_spec 8 chunk
  by_contra full
  refine h (BitVec.eq_of_getLsbD_eq fun j lt => ?_)
  rw [ones j (by omega), getLsbD_0xff lt]

/-- Every byte of the bitmap that the search looks at is `0xff`. -/
def Full (bsize : BitVec 32) (data : Block) : Prop := ∀ j : Fin BUFSIZE, (j : Nat) < bsize.toNat → data j = 0xff#8

/-- The scan stops at the first byte that is not `0xff`, or finds none. -/
theorem scanChunk_ok (data : Block) (left : Nat) : ∀ (i : Nat) (num : Int) {r : Option (BitVec 8 × Int)},
    scanChunk data left i num = .ok r →
      (r = none ∧ ∀ j : Fin BUFSIZE, i ≤ j → (j : Nat) < i + left → data j = 0xff#8) ∨
      ∃ k : Fin BUFSIZE, i ≤ k ∧ (k : Nat) < i + left ∧ data k ≠ 0xff#8 ∧ r = some (data k, num + 8 * ((k : Nat) - i)) ∧
        ∀ j : Fin BUFSIZE, i ≤ j → j < k → data j = 0xff#8 := by
  induction left with
  | zero =>
    intro i num r h
    exact .inl ⟨by simpa [scanChunk] using h.symm, fun j le lt => by omega⟩
  | succ left ih =>
    intro i num r h
    rw [scanChunk] at h
    split at h
    case isFalse => simp at h
    case isTrue lt =>
    split at h
    case isTrue ne =>
      obtain rfl := Except.ok.inj h
      refine .inr ⟨⟨i, lt⟩, le_rfl, Nat.lt_add_of_pos_right (Nat.succ_pos _), ne, by simp, fun j le lt => ?_⟩
      have : (j : Nat) < i := lt
      omega
    case isFalse eq =>
      have here : data ⟨i, lt⟩ = 0xff#8 := by simpa using eq
      have first : ∀ j : Fin BUFSIZE, i ≤ j → (i + 1 ≤ j → data j = 0xff#8) → data j = 0xff#8 := by
        intro j le rest
        by_cases e : (j : Nat) = i
        · rw [show j = ⟨i, lt⟩ from Fin.ext e]; exact here
        · exact rest (by omega)
      rcases ih (i + 1) (num + 8) h with ⟨none, all⟩ | ⟨k, le, lt', ne, found, before⟩
      · exact .inl ⟨none, fun j le lt' => first j le fun le => all j le (by omega)⟩
      · refine .inr ⟨k, by omega, by omega, ne, ?_, fun j le lt' => first j le fun le => before j le lt'⟩
        rw [found]
        congr 2
        push_cast
        ring

/-- With a byte that is not `0xff` ahead, the scan finds one. -/
theorem scanChunk_found (data : Block) (left : Nat) : ∀ (i : Nat) (num : Int),
    (∃ k : Fin BUFSIZE, i ≤ k ∧ (k : Nat) < i + left ∧ data k ≠ 0xff#8) →
      ∃ r, scanChunk data left i num = .ok (some r) := by
  induction left with
  | zero => rintro i num ⟨k, le, lt, -⟩; omega
  | succ left ih =>
    rintro i num ⟨k, le, lt, ne⟩
    have lt' : i < BUFSIZE := by omega
    rw [scanChunk, dif_pos lt']
    split
    case isTrue => exact ⟨_, rfl⟩
    case isFalse eq =>
      have here : data ⟨i, lt'⟩ = 0xff#8 := by simpa using eq
      refine ih (i + 1) (num + 8) ⟨k, ?_, by omega, ne⟩
      have : (k : Nat) ≠ i := fun e => ne (by rw [show k = ⟨i, lt'⟩ from Fin.ext e]; exact here)
      omega

/-- What the search returns: -1 and every byte is `0xff`, or the number of the first clear bit. -/
theorem findFree_ok {first : Int} {bsize : BitVec 32} {data : Block} {num : Int}
    (h : findFree first bsize data = .ok num) :
    (num = -1 ∧ Full bsize data) ∨ ∃ k : Nat, num = first + k ∧ k < 8 * bsize.toNat ∧ k < 8 * BUFSIZE ∧
      bit data k = false ∧ ∀ j < k, bit data j = true := by
  cases scan : scanChunk data bsize.toNat 0 first with
  | error e => simp [findFree, scan, Except.map] at h
  | ok r =>
    rw [findFree, scan] at h
    rcases scanChunk_ok data _ _ _ scan with ⟨rfl, all⟩ | ⟨i, -, lt, ne, rfl, before⟩
    · exact .inl ⟨(Except.ok.inj h).symm, fun j lt => all j (Nat.zero_le _) (by omega)⟩
    · obtain rfl := Except.ok.inj h
      have low := lowOnes_lt ne
      obtain ⟨-, ones, zero⟩ := lowOnes_spec 8 (data i)
      have lt' := i.2
      refine .inr ⟨8 * i + lowOnes 8 (data i), by push_cast; ring, by omega, by omega, ?_, fun j lt => ?_⟩
      · rw [bit_byte data i low]
        exact zero low
      · obtain ⟨b, c, ltc, rfl⟩ : ∃ b c, c < 8 ∧ j = 8 * b + c := ⟨j / 8, j % 8, by omega, by omega⟩
        have bound : b < BUFSIZE := by omega
        change bit data (8 * (⟨b, bound⟩ : Fin BUFSIZE) + c) = true
        rw [bit_byte data _ ltc]
        by_cases e : b = i
        · rw [show (⟨b, bound⟩ : Fin BUFSIZE) = i from Fin.ext e]
          exact ones c (by omega)
        · rw [before ⟨b, bound⟩ (Nat.zero_le _) (Fin.lt_def.2 (by simp; omega))]
          exact getLsbD_0xff ltc

/-- Unless every byte is `0xff`, the search finds a bit. -/
theorem findFree_found (first : Int) {bsize : BitVec 32} {data : Block} (h : ¬ Full bsize data) :
    ∃ k : Nat, findFree first bsize data = .ok (first + k) := by
  have some : ∃ k : Fin BUFSIZE, 0 ≤ (k : Nat) ∧ (k : Nat) < 0 + bsize.toNat ∧ data k ≠ 0xff#8 := by
    simpa [Full] using h
  obtain ⟨⟨chunk, num⟩, found⟩ := scanChunk_found data bsize.toNat 0 first some
  have ok : findFree first bsize data = .ok (num + lowOnes 8 chunk) := by rw [findFree, found]; rfl
  rcases findFree_ok ok with ⟨-, full⟩ | ⟨k, eq, -⟩
  · exact absurd full h
  · exact ⟨k, by rw [ok, eq]⟩

/-- The byte of bit `k`. -/
theorem findChunk_eq (left : Nat) : ∀ (chunkn k : Nat), k < 8 * left →
    findChunk left chunkn (k : Int) = some (chunkn + k / 8, ((k % 8 : Nat) : Int)) := by
  induction left with
  | zero => intro chunkn k lt; omega
  | succ left ih =>
    intro chunkn k lt
    rw [findChunk]
    by_cases small : k < 8
    · rw [if_pos (by omega)]
      congr 2
      · omega
      · omega
    · rw [if_neg (by omega), show (k : Int) - 8 = ((k - 8 : Nat) : Int) by omega, ih _ _ (by omega)]
      congr 2
      · omega
      · omega

/-- The data of a bitmap with bit `k` set. -/
def setBit (data : Block) (k : Nat) : Block :=
  if h : k / 8 < BUFSIZE then Function.update data ⟨k / 8, h⟩ (data ⟨k / 8, h⟩ ||| 1#8 <<< (k % 8)) else data

theorem bit_setBit (data : Block) {k : Nat} (lt : k < 8 * BUFSIZE) (j : Nat) :
    bit (setBit data k) j = (decide (j = k) || bit data j) := by
  have byte : k / 8 < BUFSIZE := by omega
  rw [setBit, dif_pos byte, bit_set data ⟨k / 8, byte⟩ (by omega)]
  have : 8 * (k / 8) + k % 8 = k := by omega
  simp [this]

/-- Setting a bit of a held bitmap writes it through. -/
theorem writeBit_hold {s : Fs} {b : BufId} {bno : BitVec 32} {data : Block} {first : Int} {k : Nat}
    (lt : k < 8 * s.sb.bsize.toNat) (byte : k < 8 * BUFSIZE) :
    writeBit first b (first + k) true (s.hold b bno data) =
      .ok (0, (s.write bno (setBit data k)).hold b bno (setBit data k)) := by
  have chunk : findChunk (s.hold b bno data).sb.bsize.toNat 0 (first + k - first) =
      some (0 + k / 8, ((k % 8 : Nat) : Int)) := by
    rw [show first + (k : Int) - first = k by omega]
    exact findChunk_eq _ 0 k lt
  have inside : 0 + k / 8 < BUFSIZE ∧ 0 ≤ ((k % 8 : Nat) : Int) := ⟨by omega, by omega⟩
  rw [writeBit, FsM.bind_of_ok FsM.get_run]
  simp only [chunk]
  rw [FsM.bind_of_ok (Coherent.bufData_hold ..), dif_pos inside, FsM.bind_of_ok (Coherent.setBufData_hold ..),
    FsM.bind_of_ok (Coherent.bioWrite_hold ..)]
  simp [setBit, show k / 8 < BUFSIZE by omega, show ((k : Int) % 8).toNat = k % 8 by omega]

/-- The state after bit `k` of a bitmap has been set through buffer `b`. -/
def Fs.markBit (s : Fs) (b : BufId) (bno : BitVec 32) (k : Nat) : Fs :=
  (s.write bno (setBit (s.disk bno) k)).letGo b (setBit (s.disk bno) k)

section Alloc
variable {s t : Fs} {bno : Superblock → BitVec 32} {first num : Int} {b : BufId}

/-- An allocation whose search finds bit `k`. -/
theorem Coherent.allocBit_eq (h : Coherent s) (nonneg : 0 ≤ first) (slot : s.Slot b (bno s.sb))
    (read : bioRead (bno s.sb) s = .ok (b, s.hold b (bno s.sb) (s.disk (bno s.sb)))) {k : Nat}
    (free : findFree first s.sb.bsize (s.disk (bno s.sb)) = .ok (first + k)) :
    k < 8 * s.sb.bsize.toNat ∧ k < 8 * BUFSIZE ∧ bit (s.disk (bno s.sb)) k = false ∧
      allocBit bno (findFree first) (writeBit first) s = .ok (first + k, s.markBit b (bno s.sb) k) := by
  rcases findFree_ok free with ⟨neg, -⟩ | ⟨k', eq, lt, byte, clear, -⟩
  · omega
  obtain rfl : k = k' := by omega
  have freed := bioFree_hold (s := s.write (bno s.sb) (setBit (s.disk (bno s.sb)) k))
    (setBit (s.disk (bno s.sb)) k) (h.valid b) slot
  refine ⟨lt, byte, clear, ?_⟩
  rw [allocBit, FsM.bind_of_ok FsM.get_run, FsM.bind_of_ok read, FsM.bind_of_ok (bufData_hold ..),
    FsM.bind_of_ok (FsM.lift_ok free), if_neg (by omega), FsM.bind_of_ok (writeBit_hold lt byte),
    FsM.bind_of_ok freed]
  rfl

/-- What an allocation does when it returns: the bitmap is full and stays held, or the first
clear bit is set, in the buffer and on the disk. -/
theorem Coherent.allocBit_ok (h : Coherent s) (nonneg : 0 ≤ first)
    (run : allocBit bno (findFree first) (writeBit first) s = .ok (num, t)) :
    ∃ b, s.Slot b (bno s.sb) ∧
      ((num = -1 ∧ Full s.sb.bsize (s.disk (bno s.sb)) ∧ t = s.hold b (bno s.sb) (s.disk (bno s.sb))) ∨
        ∃ k : Nat, num = first + k ∧ k < 8 * s.sb.bsize.toNat ∧ k < 8 * BUFSIZE ∧
          bit (s.disk (bno s.sb)) k = false ∧ t = s.markBit b (bno s.sb) k) := by
  obtain ⟨b, u, read, -⟩ := FsM.bind_ok.1 ((FsM.bind_of_ok FsM.get_run).symm.trans run)
  obtain ⟨slot, rfl⟩ := h.bioRead_inv read
  refine ⟨b, slot, ?_⟩
  cases free : findFree first s.sb.bsize (s.disk (bno s.sb)) with
  | error e =>
    rw [allocBit, FsM.bind_of_ok FsM.get_run, FsM.bind_of_ok read, FsM.bind_of_ok (bufData_hold ..)] at run
    obtain ⟨found, u, search, -⟩ := FsM.bind_ok.1 run
    rw [FsM.lift_error free] at search
    simp at search
  | ok n =>
    rcases findFree_ok free with ⟨rfl, full⟩ | ⟨k, rfl, -⟩
    · rw [allocBit, FsM.bind_of_ok FsM.get_run, FsM.bind_of_ok read, FsM.bind_of_ok (bufData_hold ..),
        FsM.bind_of_ok (FsM.lift_ok free), if_pos (by decide)] at run
      obtain ⟨rfl, rfl⟩ := Prod.mk.inj (Except.ok.inj run)
      exact .inl ⟨rfl, full, rfl⟩
    · obtain ⟨lt, byte, clear, done⟩ := h.allocBit_eq nonneg slot read free
      rw [done] at run
      obtain ⟨rfl, rfl⟩ := Prod.mk.inj (Except.ok.inj run)
      exact .inr ⟨k, rfl, lt, byte, clear, rfl⟩

/-- With a buffer for it, an allocation from a bitmap that is not full returns a number. -/
theorem Coherent.allocBit_found (h : Coherent s) (bno : Superblock → BitVec 32) {first : Int} (nonneg : 0 ≤ first) (room : s.Room (bno s.sb))
    (some : ¬ Full s.sb.bsize (s.disk (bno s.sb))) :
    ∃ num t, 0 ≤ num ∧ allocBit bno (findFree first) (writeBit first) s = .ok (num, t) := by
  obtain ⟨b, slot, read⟩ := h.bioRead_ok room
  obtain ⟨k, free⟩ := findFree_found first some
  obtain ⟨-, -, -, done⟩ := h.allocBit_eq nonneg slot read free
  exact ⟨first + k, _, by omega, done⟩

theorem markBit_disk (s : Fs) (b : BufId) (bno : BitVec 32) (k : Nat) :
    (s.markBit b bno k).disk = Function.update s.disk bno (setBit (s.disk bno) k) := rfl

theorem markBit_sb (s : Fs) (b : BufId) (bno : BitVec 32) (k : Nat) : (s.markBit b bno k).sb = s.sb := rfl

end Alloc

/-- The block bitmap on the disk. -/
def Fs.blockBitmap (s : Fs) : Block := s.disk s.sb.block_bitmap

/-- What `ext2_alloc_block` is to do when it returns a block: the bit that stands for it,
bit `bn - s_first_data_block`, was clear, is set, and no other bit has changed. -/
def MarksOwnBit (s : Fs) : Prop :=
  ∀ bn t, ext2AllocBlock s = .ok (bn, t) → 0 ≤ bn → ∃ k : Nat, (k : Int) = bn - s.sb.first_data_block.toNat ∧
    bit s.blockBitmap k = false ∧ bit t.blockBitmap k = true ∧ ∀ j, j ≠ k → bit t.blockBitmap j = bit s.blockBitmap j

/-- Calls of `ext2_alloc_block` in a row, with what they return. -/
inductive AllocRun : Fs → List Int → Fs → Prop
  | nil (s : Fs) : AllocRun s [] s
  | cons {s t u : Fs} {bn : Int} {bns : List Int} :
    ext2AllocBlock s = .ok (bn, t) → AllocRun t bns u → AllocRun s (bn :: bns) u

/-- The bit of every block in `owned` is set. -/
def Fs.Marked (s : Fs) (owned : Nat → Prop) : Prop :=
  ∀ bn, owned bn → ∃ k, bn = k + s.sb.first_data_block.toNat ∧ bit s.blockBitmap k = true

section OwnBit
variable {s t : Fs} {bn : Int}

/-- The bit `ext2_alloc_block` sets is the bit with the number it returns. -/
theorem Coherent.alloc_block (h : Coherent s) (run : ext2AllocBlock s = .ok (bn, t)) (nonneg : 0 ≤ bn) :
    ∃ k : Nat, bn = k ∧ bit s.blockBitmap k = false ∧ t.sb = s.sb ∧
      ∀ j, bit t.blockBitmap j = (decide (j = k) || bit s.blockBitmap j) := by
  obtain ⟨b, slot, ⟨rfl, -⟩ | ⟨k, rfl, -, byte, clear, rfl⟩⟩ := h.allocBit_ok le_rfl run
  · omega
  · refine ⟨k, by omega, clear, rfl, fun j => ?_⟩
    rw [Fs.blockBitmap, markBit_disk, markBit_sb, Function.update_self, bit_setBit _ byte]
    rfl

/-- An allocation keeps the cache coherent, the superblock, and every set bit. -/
theorem Coherent.alloc_block_keeps (h : Coherent s) (pos : s.sb.block_bitmap ≠ 0)
    (run : ext2AllocBlock s = .ok (bn, t)) :
    Coherent t ∧ t.sb = s.sb ∧ ∀ j, bit s.blockBitmap j = true → bit t.blockBitmap j = true := by
  obtain ⟨b, slot, ⟨rfl, -, rfl⟩ | ⟨k, rfl, -, byte, clear, rfl⟩⟩ := h.allocBit_ok le_rfl run
  · exact ⟨h.hold slot, rfl, fun j set => set⟩
  · refine ⟨h.letGo_write slot pos, rfl, fun j set => ?_⟩
    rw [Fs.blockBitmap, markBit_disk, markBit_sb, Function.update_self, bit_setBit _ byte]
    exact Bool.or_eq_true_iff.2 (.inr set)

/-- Blocks start at 0: an allocation marks the block it returns. -/
theorem Coherent.marks_own_bit (h : Coherent s) (zero : s.sb.first_data_block = 0) : MarksOwnBit s := by
  intro bn t run nonneg
  obtain ⟨k, rfl, clear, -, bits⟩ := h.alloc_block run nonneg
  refine ⟨k, by simp [zero], clear, by simp [bits], fun j ne => by simp [bits, ne]⟩

/-- Blocks start later: the bit of the block it returns is not the one it sets. -/
theorem Coherent.not_marks_own_bit (h : Coherent s) (pos : s.sb.first_data_block ≠ 0)
    (some : ¬ Full s.sb.bsize s.blockBitmap) (room : s.Room s.sb.block_bitmap) : ¬ MarksOwnBit s := by
  intro own
  obtain ⟨bn, t, nonneg, run⟩ := h.allocBit_found Superblock.block_bitmap (le_refl 0) room some
  obtain ⟨k, eq, clear, set, -⟩ := own bn t run nonneg
  obtain ⟨k', rfl, -, -, bits⟩ := h.alloc_block run nonneg
  have positive : 0 < s.sb.first_data_block.toNat := by
    rw [Nat.pos_iff_ne_zero]
    exact fun e => pos (BitVec.eq_of_toNat_eq e)
  have ne : k ≠ k' := by omega
  rw [bits, clear] at set
  simp [ne] at set

/-- With no clear bit no block is returned. -/
theorem Coherent.full_marks (h : Coherent s) (full : Full s.sb.bsize s.blockBitmap) : MarksOwnBit s := by
  intro bn t run nonneg
  obtain ⟨b, slot, ⟨rfl, -⟩ | ⟨k, rfl, lt, byte, clear, rfl⟩⟩ := h.allocBit_ok le_rfl run
  · omega
  · have bound : k / 8 < BUFSIZE := by omega
    have ones := full ⟨k / 8, bound⟩ (show k / 8 < s.sb.bsize.toNat by omega)
    rw [Fs.blockBitmap] at ones
    rw [bit, dif_pos bound, ones, getLsbD_0xff (by omega)] at clear
    simp at clear

/-- In a run of allocations no marked block is handed out, and no block twice. -/
theorem Coherent.alloc_run {bns : List Int} (run : AllocRun s bns t) (h : Coherent s)
    (zero : s.sb.first_data_block = 0) (pos : s.sb.block_bitmap ≠ 0) :
    (∀ bn ∈ bns, 0 ≤ bn → bit s.blockBitmap bn.toNat = false) ∧ (bns.filter fun bn => 0 ≤ bn).Nodup := by
  induction run with
  | nil => exact ⟨fun bn mem => by simp at mem, by simp⟩
  | @cons s t u bn bns call _ ih =>
    obtain ⟨coherent, sb, kept⟩ := h.alloc_block_keeps pos call
    obtain ⟨later, nodup⟩ := ih coherent (by rw [sb]; exact zero) (by rw [sb]; exact pos)
    have clear : ∀ bn ∈ bns, 0 ≤ bn → bit s.blockBitmap bn.toNat = false := by
      intro bn mem nonneg
      by_contra set
      have := kept _ (by simpa using set)
      rw [later bn mem nonneg] at this
      simp at this
    by_cases nonneg : 0 ≤ bn
    · obtain ⟨k, rfl, unset, -, bits⟩ := h.alloc_block call nonneg
      refine ⟨fun bn mem nonneg => ?_, ?_⟩
      · rcases List.mem_cons.1 mem with rfl | mem
        · exact unset
        · exact clear bn mem nonneg
      · rw [List.filter_cons_of_pos (by simp)]
        refine List.nodup_cons.2 ⟨fun mem => ?_, nodup⟩
        -- the bit of the block just handed out is set from now on
        have marked : bit t.blockBitmap k = true := by simp [bits]
        have again := later k (List.mem_filter.1 mem).1 (by omega)
        rw [Int.toNat_natCast, marked] at again
        simp at again
    · refine ⟨fun bn' mem nonneg' => ?_, ?_⟩
      · rcases List.mem_cons.1 mem with rfl | mem
        · exact absurd nonneg' nonneg
        · exact clear bn' mem nonneg'
      · rwa [List.filter_cons_of_neg (by simpa using nonneg)]

end OwnBit

/-- A volume whose blocks start at `first`, with its bitmap in block 3 and the first four
blocks in use. -/
def smallVolume (first : BitVec 8) (bno : BitVec 32) : Block := fun i =>
  if bno = 1#32 then
    if (i : Nat) = 20 then first else if (i : Nat) = 56 then 0x53#8 else if (i : Nat) = 57 then 0xef#8
    else if (i : Nat) = 88 then 0x80#8 else 0#8
  else if bno = 2#32 then
    if (i : Nat) = 0 then 3#8 else if (i : Nat) = 8 then 4#8 else 0#8
  else if bno = 3#32 then
    if (i : Nat) = 0 then 0x0f#8 else 0#8
  else 0#8

/-- The file system with that volume mounted. -/
def smallFs (first : BitVec 8) : Fs :=
  { Fs.boot (smallVolume first) with sb := superblockOf (smallVolume first 1#32) (smallVolume first 2#32) }

theorem smallFs_mounted (first : BitVec 8) : ext2Init (Fs.boot (smallVolume first)) = .ok ((), smallFs first) :=
  Fs.boot_mounts (by simp [le16, byte, smallVolume, BUFSIZE])

theorem smallFs_sb (first : BitVec 8) : (smallFs first).sb.bsize = 1024#32 ∧ (smallFs first).sb.block_bitmap = 3#32 ∧
    (smallFs first).sb.first_data_block = 0#16 ++ (0#8 ++ first) := by
  refine ⟨?_, ?_, ?_⟩
  · simp [smallFs, superblockOf, le32, le16, byte, smallVolume, BUFSIZE]
  · simp [smallFs, superblockOf, le32, le16, byte, smallVolume, BUFSIZE]
  · simp [smallFs, superblockOf, le32, le16, byte, smallVolume, BUFSIZE]

theorem smallFs_bitmap (first : BitVec 8) (i : Fin BUFSIZE) :
    (smallFs first).blockBitmap i = if (i : Nat) = 0 then 0x0f#8 else 0#8 := by
  rw [Fs.blockBitmap, (smallFs_sb first).2.1]
  simp [smallFs, Fs.boot, smallVolume]

theorem smallFs_coherent (first : BitVec 8) : Coherent (smallFs first) :=
  ⟨fun _ _ => rfl, fun _ used => absurd rfl used, fun _ used => absurd rfl used, fun _ _ used => absurd rfl used⟩

/-- Its first clear bit is bit 4. -/
theorem smallFs_alloc (first : BitVec 8) : ∃ t, ext2AllocBlock (smallFs first) = .ok (4, t) := by
  have room : (smallFs first).Room (smallFs first).sb.block_bitmap := ⟨0, .inr rfl⟩
  obtain ⟨b, slot, read⟩ := (smallFs_coherent first).bioRead_ok room
  have free : findFree 0 (smallFs first).sb.bsize ((smallFs first).disk (smallFs first).sb.block_bitmap) =
      .ok (0 + (4 : Nat)) := by
    change findFree 0 _ (smallFs first).blockBitmap = _
    rw [(smallFs_sb first).1, findFree, show (1024#32).toNat = 1023 + 1 from rfl, scanChunk, dif_pos (by decide),
      smallFs_bitmap, if_pos (by decide)]
    rfl
  obtain ⟨-, -, -, done⟩ := (smallFs_coherent first).allocBit_eq (le_refl 0) slot read free
  exact ⟨_, done⟩

end Aarch64Os.Kernel
