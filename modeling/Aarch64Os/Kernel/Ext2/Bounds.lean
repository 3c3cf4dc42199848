import Mathlib
import Aarch64Os.Base.Decides
import Aarch64Os.Kernel.Ext2.Balance
import Aarch64Os.Kernel.Ext2.Effects
import Aarch64Os.Kernel.Ext2.InumBits
import Aarch64Os.Kernel.Ext2.ReadRight

/-!
# Indices into the data of a buffer (`kernel/ext2.c`)

A buffer holds 1024 bytes whatever the superblock says. Each place that computes an index into
one, or divides by a size of the superblock, is followed here from an arbitrary state with two
free buffers: it returns where its index is inside and its divisor is not 0, and is undefined
elsewhere. What the buffers hold plays no part, but for the bitmaps.
-/

namespace Aarch64Os.Kernel
set_option autoImplicit false
open Base

/-- As many holders, with the superblock and the table as they were. -/
structure Fs.Level (s t : Fs) : Prop where
  refs : t.refs = s.refs
  sb : t.sb = s.sb
  itable : t.itable = s.itable

/-- One more holder of `b`. -/
structure Fs.Taken (s : Fs) (b : BufId) (t : Fs) : Prop where
  refs : t.refs = s.refs + one b
  sb : t.sb = s.sb
  itable : t.itable = s.itable

section States
variable {s t u : Fs} {b : BufId} {bno : BitVec 32}

theorem Fs.Level.refl (s : Fs) : s.Level s := ⟨rfl, rfl, rfl⟩

theorem Fs.Level.trans (first : s.Level t) (second : t.Level u) : s.Level u :=
  ⟨second.refs.trans first.refs, second.sb.trans first.sb, second.itable.trans first.itable⟩

theorem Fs.Taken.level (h : s.Taken b t) (level : t.Level u) : s.Taken b u :=
  ⟨level.refs.trans h.refs, level.sb.trans h.sb, level.itable.trans h.itable⟩

theorem Fs.Level.spare (h : s.Level t) (spare : s.Spare) : t.Spare := by
  obtain ⟨b, d, ne, free, free'⟩ := spare
  have same : ∀ e, (t.bcache e).ref = (s.bcache e).ref := congrFun h.refs
  exact ⟨b, d, ne, by rw [same, free], by rw [same, free']⟩

/-- One buffer is free still. -/
theorem Fs.Taken.room (h : s.Taken b t) (spare : s.Spare) (bno : BitVec 32) : t.Room bno := by
  obtain ⟨d, e, ne, free, free'⟩ := spare
  have same : ∀ x, x ≠ b → (t.bcache x).ref = (s.bcache x).ref := fun x other => by
    have count := congrFun h.refs x
    rw [Pi.add_apply, one, Pi.single_eq_of_ne other, add_zero] at count
    exact count
  by_cases here : d = b
  · exact ⟨e, .inr (by rw [same e fun eq => ne (here.trans eq.symm), free'])⟩
  · exact ⟨d, .inr (by rw [same d here, free])⟩

/-- The buffer is held. -/
theorem Fs.Taken.held (h : s.Taken b t) : (t.bcache b).ref ≠ 0 := by
  have count := congrFun h.refs b
  rw [Pi.add_apply, one, Pi.single_eq_same] at count
  have count : (t.bcache b).ref = s.refs b + 1 := count
  omega

end States

section Buffers
variable {s t : Fs} {b : BufId} {bno : BitVec 32}

/-- With room, `bio_read` returns. -/
theorem decides_bioRead (room : s.Room bno) :
    Decides .undefined (bioRead bno) s True fun b t => s.Taken b t ∧ (t.bcache b).data = s.seen bno := by
  obtain ⟨b, t, run⟩ : ∃ b t, bioRead bno s = .ok (b, t) := by
    obtain ⟨⟨b, held⟩, slot⟩ := room.slot
    have got : ∃ u, getBuf bno s = .ok (b, u) := by
      cases held <;> simp [getBuf, slot]
    obtain ⟨u, got⟩ := got
    rw [bioRead, FsM.bind_of_ok got, FsM.bind_of_ok FsM.get_run]
    cases (u.bcache b).valid
    · exact ⟨b, _, rfl⟩
    · exact ⟨b, _, rfl⟩
  obtain ⟨refs, -, itable, sb, data⟩ := bioRead_run run
  exact Decides.of_run run ⟨⟨refs, sb, itable⟩, data⟩

/-- A buffer somebody holds can be let go. -/
theorem decides_bioFree (taken : s.Taken b t) : Decides .undefined (bioFree b) t True fun _ u => s.Level u := by
  obtain ⟨u, run⟩ : ∃ u, bioFree b t = .ok ((), u) := by
    unfold bioFree
    rw [if_neg taken.held]
    exact ⟨_, rfl⟩
  have quiet := quiet_bioFree t b _ u run
  have paid := (owes_bioFree t b _ u run).2.2 trivial
  rw [taken.refs] at paid
  exact Decides.of_run run ⟨add_right_cancel paid, quiet.sb.trans taken.sb, quiet.itable.trans taken.itable⟩

theorem level_setBufData (s : Fs) (b : BufId) (data : Block) : ∃ t, setBufData b data s = .ok ((), t) ∧ s.Level t :=
  ⟨_, rfl, refs_set_same s b rfl, rfl, rfl⟩

theorem level_bioWrite (s : Fs) (b : BufId) : ∃ t, bioWrite b s = .ok ((), t) ∧ s.Level t :=
  ⟨_, rfl, refs_set_same s b rfl, rfl, rfl⟩

/-- Setting a bit inside the buffer. -/
theorem decides_writeBit {first : Int} {k : Nat} (lt : k < 8 * s.sb.bsize.toNat) (byte : k < 8 * BUFSIZE) :
    Decides .undefined (writeBit first b (first + k) true) s True fun _ t => s.Level t := by
  have chunk : findChunk s.sb.bsize.toNat 0 (first + k - first) = some (0 + k / 8, ((k % 8 : Nat) : Int)) := by
    rw [show first + (k : Int) - first = k by omega]
    exact findChunk_eq _ 0 k lt
  have inside : 0 + k / 8 < BUFSIZE ∧ 0 ≤ ((k % 8 : Nat) : Int) := ⟨by omega, by omega⟩
  unfold writeBit
  apply Decides.step FsM.get_run
  simp only [chunk]
  apply Decides.step (bufData_run s b)
  rw [dif_pos inside]
  obtain ⟨t, set, level⟩ := level_setBufData s b (Function.update (s.bcache b).data ⟨0 + k / 8, inside.1⟩
    (if true then (s.bcache b).data ⟨0 + k / 8, inside.1⟩ ||| 1#8 <<< ((k % 8 : Nat) : Int).toNat
      else (s.bcache b).data ⟨0 + k / 8, inside.1⟩ &&& ~~~(1#8 <<< ((k % 8 : Nat) : Int).toNat)))
  apply Decides.step set
  obtain ⟨u, write, level'⟩ := level_bioWrite t b
  apply Decides.step write
  exact Decides.pure (level.trans level')

/-- The scan of a bitmap leaves the buffer when the bitmap is full as far as the buffer goes and
the block goes further. -/
theorem decides_allocBit (bno : Superblock → BitVec 32) {first : Int} (nonneg : 0 ≤ first) (room : s.Room (bno s.sb)) :
    Decides .undefined (allocBit bno (findFree first) (writeBit first)) s
      (s.sb.bsize.toNat ≤ BUFSIZE ∨ s.HasBit (bno s.sb)) fun _ _ => True := by
  unfold allocBit
  apply Decides.step FsM.get_run
  apply Decides.behind (decides_bioRead room)
  intro b t ⟨taken, data⟩
  apply Decides.step (bufData_run t b)
  rw [data]
  by_cases full : Full s.sb.bsize (s.seen (bno s.sb))
  · have search := findFree_full first full
    by_cases small : s.sb.bsize.toNat ≤ BUFSIZE
    · rw [if_pos small] at search
      apply Decides.congr (P := True)
      · apply Decides.step (FsM.lift_ok search)
        exact Decides.pure trivial
      · exact iff_of_true trivial (.inl small)
    · rw [if_neg small] at search
      apply Decides.congr (P := False)
      · constructor
        · exact False.elim
        · intro _
          rw [FsM.bind_run, FsM.lift_error search]
          rfl
      · exact iff_of_false id fun either => either.elim small fun some => some full
  · obtain ⟨k, search⟩ := findFree_found first full
    obtain ⟨neg, -⟩ | ⟨k', eq, lt, byte, -⟩ := findFree_ok search
    · omega
    obtain rfl : k = k' := by omega
    apply Decides.congr (P := True)
    · apply Decides.step (FsM.lift_ok search)
      rw [if_neg (by omega)]
      apply Decides.behind (decides_writeBit (by rw [taken.sb]; exact lt) byte)
      intro _ u level
      apply Decides.behind (decides_bioFree (taken.level level))
      intro _ v _
      exact Decides.pure trivial
    · exact iff_of_true trivial (.inr full)

end Buffers

section Inodes
variable {s t : Fs} {b : BufId} {ino : InodeId} {i : Nat}

/-- The arithmetic of `ext2_raw_inode` divides by neither size 0 nor a number of records that is 0. -/
def Superblock.Divides (sb : Superblock) : Prop := sb.inode_size.toNat ≠ 0 ∧ sb.perBlock ≠ 0

theorem decides_ext2RawInode (room : ∀ bno, s.Room bno) (inum : BitVec 32) :
    Decides .undefined (ext2RawInode inum) s s.sb.Divides fun p t => s.Taken p.1 t ∧ p.2 = s.sb.recordOff inum := by
  unfold ext2RawInode
  apply Decides.step FsM.get_run
  by_cases zero : s.sb.inode_size.toNat = 0 ∨ s.sb.perBlock = 0
  · rw [if_pos zero]
    exact (Decides.throw _).congr (iff_of_false id fun divides => zero.elim divides.1 divides.2)
  · rw [if_neg zero]
    apply Decides.congr (P := True)
    · apply Decides.behind (decides_bioRead (room _))
      intro b t ⟨taken, _⟩
      exact Decides.pure ⟨taken, rfl⟩
    · exact iff_of_true trivial ⟨fun eq => zero (.inl eq), fun eq => zero (.inr eq)⟩

/-- `inode_sync` stores its fields inside the buffer. -/
theorem decides_inodeSync (spare : s.Spare) (ino : InodeId) :
    Decides .undefined (inodeSync ino) s (s.sb.Divides ∧ s.sb.recordOff (s.itable ino).inum + 100 ≤ BUFSIZE) fun _ _ => True := by
  unfold inodeSync
  apply Decides.step FsM.get_run
  apply Decides.bind (decides_ext2RawInode spare.room _)
  intro ⟨b, off⟩ t ⟨taken, offset⟩
  dsimp only at taken offset ⊢
  subst offset
  apply Decides.step (bufData_run t b)
  by_cases fits : s.sb.recordOff (s.itable ino).inum + 100 ≤ BUFSIZE
  · rw [if_pos fits]
    apply Decides.congr (P := True)
    · obtain ⟨u, set, level⟩ := level_setBufData t b ((s.itable ino).encode (t.bcache b).data (s.sb.recordOff (s.itable ino).inum))
      apply Decides.step set
      obtain ⟨v, write, level'⟩ := level_bioWrite u b
      apply Decides.step write
      exact (decides_bioFree (taken.level (level.trans level'))).mono fun _ _ _ => trivial
    · exact iff_of_true trivial fits
  · rw [if_neg fits]
    exact (Decides.throw _).congr (iff_of_false id fits)

/-- `ext2_get_inode` reads the fields of the record when it has a place for them. -/
theorem decides_ext2GetInode (spare : s.Spare) (inum : BitVec 32) :
    Decides .undefined (ext2GetInode inum) s
      (s.sb.Divides ∧ (s.inodeSlot inum = none ∨ s.sb.recordOff inum + 100 ≤ BUFSIZE)) fun _ _ => True := by
  obtain ⟨r, u, find, refs, sb, place⟩ : ∃ r u, findInode inum s = .ok (r, u) ∧ u.refs = s.refs ∧ u.sb = s.sb ∧
      (r = none ↔ s.inodeSlot inum = none) := by
    unfold findInode
    split
    case h_1 i slot => exact ⟨_, _, rfl, rfl, rfl, by simp [slot]⟩
    case h_2 i slot => exact ⟨_, _, rfl, rfl, rfl, by simp [slot]⟩
    case h_3 slot => exact ⟨_, _, rfl, rfl, rfl, by simp [slot]⟩
  have room : u.Spare := by
    obtain ⟨b, d, ne, free, free'⟩ := spare
    have same : ∀ e, (u.bcache e).ref = (s.bcache e).ref := congrFun refs
    exact ⟨b, d, ne, by rw [same, free], by rw [same, free']⟩
  unfold ext2GetInode
  apply Decides.step find
  rw [← sb, ← place]
  apply Decides.bind (decides_ext2RawInode room.room inum)
  intro ⟨b, off⟩ t ⟨taken, offset⟩
  dsimp only at taken offset ⊢
  subst offset
  cases r with
  | none => exact (Decides.pure trivial).congr (by simp)
  | some i =>
    apply Decides.step (bufData_run t b)
    by_cases fits : u.sb.recordOff inum + 100 ≤ BUFSIZE
    · rw [if_pos fits]
      apply Decides.congr (P := True)
      · apply Decides.step (FsM.modify_run _)
        have held : Fs.Taken { u with itable := (t.setInode i fun x => x.decode (t.bcache b).data (u.sb.recordOff inum)).itable } b
            (t.setInode i fun x => x.decode (t.bcache b).data (u.sb.recordOff inum)) := ⟨taken.refs, taken.sb, rfl⟩
        apply Decides.behind (decides_bioFree held)
        intro _ v _
        exact Decides.pure trivial
      · exact iff_of_true trivial (.inr fits)
    · rw [if_neg fits]
      exact (Decides.throw _).congr (iff_of_false id (by simp [fits]))

/-- The map of an inode has 12 direct slots and 256 entries in its indirect block. -/
theorem decides_ext2InodeBlock (spare : s.Spare) (ino : InodeId) (bi : Nat) :
    Decides .undefined (ext2InodeBlock ino bi) s (bi < 268) fun b t => s.Taken b t := by
  have bufsize : BUFSIZE = 1024 := rfl
  unfold ext2InodeBlock
  apply Decides.step FsM.get_run
  by_cases direct : bi < 12
  · rw [dif_pos direct]
    exact ((decides_bioRead (spare.room _)).mono fun _ _ h => h.1).congr (iff_of_true trivial (by omega))
  · rw [dif_neg direct]
    apply Decides.behind (decides_bioRead (spare.room _))
    intro map t ⟨taken, _⟩
    apply Decides.step (bufData_run t map)
    unfold readIndirectBlock
    by_cases inside : 4 * (bi - 12) + 4 ≤ BUFSIZE
    · rw [if_pos inside]
      apply Decides.congr (P := True)
      · apply Decides.behind (decides_bioRead (taken.room spare _))
        intro b u ⟨taken', _⟩
        -- the map is let go, and the block stays
        have held : Fs.Taken { s with bcache := fun d => { s.bcache d with ref := (s.bcache d).ref + one b d } } map u := by
          constructor
          · rw [taken'.refs, taken.refs, add_right_comm]
            rfl
          · exact taken'.sb.trans taken.sb
          · exact taken'.itable.trans taken.itable
        apply Decides.behind (decides_bioFree held)
        intro _ v level
        exact Decides.pure ⟨level.refs, level.sb, level.itable⟩
      · exact iff_of_true trivial (by omega)
    · rw [if_neg inside]
      apply Decides.congr (P := False)
      · exact ⟨False.elim, fun _ => rfl⟩
      · exact iff_of_false id (by omega)

theorem decides_copyOut (s : Fs) (b : BufId) (off len : Nat) :
    Decides .undefined (copyOut b off len) s (off + len ≤ BUFSIZE) fun _ t => s.Level t := by
  unfold copyOut
  apply Decides.step (bufData_run s b)
  by_cases inside : off + len ≤ BUFSIZE
  · rw [if_pos inside]
    exact (Decides.pure (.refl s)).congr (iff_of_true trivial inside)
  · rw [if_neg inside]
    exact (Decides.throw _).congr (iff_of_false id inside)

theorem decides_copyIn (s : Fs) (b : BufId) (off : Nat) (buf : Nat → BitVec 8) (len : Nat) :
    Decides .undefined (copyIn b off buf len) s (off + len ≤ BUFSIZE) fun _ t => s.Level t := by
  unfold copyIn
  apply Decides.step (bufData_run s b)
  by_cases inside : off + len ≤ BUFSIZE
  · rw [if_pos inside]
    obtain ⟨t, set, level⟩ := level_setBufData s b (splice (s.bcache b).data off buf len)
    exact (Decides.of_run set level).congr (iff_of_true trivial inside)
  · rw [if_neg inside]
    exact (Decides.throw _).congr (iff_of_false id inside)

end Inodes

section Loops

/-- The reading loop stays inside the map and inside each buffer. -/
theorem decides_readBlocks (ino : InodeId) {bsize : Nat} (lastblk left : Nat) : ∀ (s : Fs) (i size ooff : Nat), s.Spare → ooff < bsize →
    Decides .undefined (readBlocks ino bsize lastblk left i size ooff) s
      (∀ j, i ≤ j → j < i + left → j ≤ lastblk → j < 268 ∧ min (i * bsize + ooff + size - j * bsize) bsize ≤ BUFSIZE)
      fun _ t => s.Level t := by
  induction left with
  | zero =>
    intro s i size ooff _ _
    apply (Decides.pure (.refl s)).congr
    apply iff_of_true trivial
    omega
  | succ left ih =>
    intro s i size ooff spare lt
    rw [readBlocks]
    by_cases more : i ≤ lastblk
    · rw [if_pos more, visits_cons more, ← copySize_here i lt, and_assoc]
      apply Decides.bind (decides_ext2InodeBlock spare ino i)
      intro b t taken
      apply Decides.bind (decides_copyOut t b _ _)
      intro bytes u level
      apply Decides.behind (decides_bioFree (taken.level level))
      intro _ v level'
      have rest := ih v (i + 1) (size - copySize bsize size ooff) 0 (level'.spare spare) (by omega)
      apply Decides.congr (P := (∀ j, i + 1 ≤ j → j < i + 1 + left → j ≤ lastblk →
        j < 268 ∧ min ((i + 1) * bsize + 0 + (size - copySize bsize size ooff) - j * bsize) bsize ≤ BUFSIZE) ∧ True)
      · apply Decides.bind rest
        intro tail w level''
        exact Decides.pure (level'.trans level'')
      · rw [and_true]
        constructor <;> intro all j ge lt' last
        · rw [← copySize_end lt ge]
          exact all j ge lt' last
        · rw [copySize_end lt ge]
          exact all j ge lt' last
    · rw [if_neg more]
      apply (Decides.pure (.refl s)).congr
      apply iff_of_true trivial
      omega

/-- The writing loop does, where what is left drops by whole blocks. -/
theorem decides_writeBlocks (ino : InodeId) (buf : Nat → BitVec 8) {bsize : Nat} (lastblk left : Nat) :
    ∀ (s : Fs) (i size ooff pos : Nat), s.Spare → ooff < bsize →
    Decides .undefined (writeBlocks ino buf bsize lastblk left i size ooff pos) s
      (∀ j, i ≤ j → j < i + left → j ≤ lastblk →
        j < 268 ∧ min ((if j = i then ooff else 0) + (size - (j - i) * bsize)) bsize ≤ BUFSIZE) fun _ t => s.Level t := by
  induction left with
  | zero =>
    intro s i size ooff pos _ _
    apply (Decides.pure (.refl s)).congr
    apply iff_of_true trivial
    omega
  | succ left ih =>
    intro s i size ooff pos spare lt
    rw [writeBlocks]
    by_cases more : i ≤ lastblk
    · have here : ooff + copySize bsize size ooff = min ((if i = i then ooff else 0) + (size - (i - i) * bsize)) bsize := by
        rw [if_pos rfl, Nat.sub_self, Nat.zero_mul, Nat.sub_zero, copySize_min (Nat.le_of_lt lt)]
        omega
      have drop : (if size > bsize then size - bsize else 0) = size - bsize := by
        split <;> omega
      have later : ∀ j, i + 1 ≤ j → (if j = i then ooff else 0) + (size - (j - i) * bsize) =
          (if j = i + 1 then 0 else 0) + (size - bsize - (j - (i + 1)) * bsize) := by
        intro j ge
        obtain ⟨k, rfl⟩ : ∃ k, j = i + 1 + k := ⟨j - (i + 1), by omega⟩
        have count : i + 1 + k - i = k + 1 := by omega
        rw [if_neg (by omega), ite_self, count, Nat.add_sub_cancel_left, Nat.succ_mul, Nat.sub_sub, Nat.add_comm bsize]
      rw [if_pos more, visits_cons more, ← here, and_assoc, drop]
      apply Decides.bind (decides_ext2InodeBlock spare ino i)
      intro b t taken
      apply Decides.bind (decides_copyIn t b _ _ _)
      intro _ u level
      obtain ⟨w, write, level'⟩ := level_bioWrite u b
      apply Decides.step write
      apply Decides.behind (decides_bioFree (taken.level (level.trans level')))
      intro _ v freed
      have rest := ih v (i + 1) (size - bsize) 0 (pos + copySize bsize size ooff) (freed.spare spare) (by omega)
      apply (rest.mono fun _ _ level'' => freed.trans level'').congr
      constructor <;> intro all j ge lt' last
      · rw [later j ge]
        exact all j ge lt' last
      · rw [← later j ge]
        exact all j ge lt' last
    · rw [if_neg more]
      apply (Decides.pure (.refl s)).congr
      apply iff_of_true trivial
      omega

end Loops

/-- The loop of `ext2_w_inode`, on the blocks the inode has then, behind the divisions before it. -/
def wInodeLoop (bsize : Nat) (ino : InodeId) (buf : Nat → BitVec 8) (off size : BitVec 64) : FsM Unit :=
  if bsize = 0 then throw .undefined
  else do
    let s ← get
    let offblk := off.toNat / bsize % 2 ^ 32
    let lastblk := (size + off).toNat / bsize % 2 ^ 32
    writeBlocks ino buf bsize lastblk ((s.itable ino).nblock - offblk) offblk size.toNat (off.toNat % bsize) 0

/-- `ext2_w_inode` past its first test is growth, this loop, and `inode_sync`. -/
theorem ext2WInode_parts {s : Fs} {ino : InodeId} {buf : Nat → BitVec 8} {off size : BitVec 64}
    (inside : off.toNat ≤ (s.itable ino).size.toNat) (pos : s.sb.bsize.toNat ≠ 0) :
    ext2WInode ino buf off size s =
      (do growTo ino ((size + off).toNat / s.sb.bsize.toNat % 2 ^ 32)
          wInodeLoop s.sb.bsize.toNat ino buf off size
          inodeSync ino
          pure (size.setWidth 32).toInt : FsM Int)
        (if (off + size).toNat > (s.itable ino).size.toNat then s.setInode ino fun x => { x with size := (off + size).setWidth 32 }
          else s) := by
  unfold ext2WInode wInodeLoop
  rw [FsM.bind_of_ok FsM.get_run]
  dsimp only
  rw [if_neg (by omega), FsM.bind_of_ok (FsM.set_run _), if_neg pos, if_neg pos]
  simp only [bind_assoc]

/-- The indices of `ext2_read_inode`. -/
def ReadInBounds (s : Fs) (ino : InodeId) (off size : BitVec 64) : Prop :=
  let isize := (s.itable ino).size.toNat
  let bsize := s.sb.bsize.toNat
  let left := if (off + size).toNat > isize then isize - off.toNat else size.toNat
  isize < off.toNat ∨ bsize ≠ 0 ∧
    ∀ j < (s.itable ino).nblock, off.toNat / bsize ≤ j → j ≤ (left + off.toNat) % 2 ^ 64 / bsize % 2 ^ 32 →
      j < 268 ∧ min (off.toNat + left - j * bsize) bsize ≤ BUFSIZE

/-- The indices of the loop of `ext2_w_inode`, where what is left drops by whole blocks. -/
def WriteInBounds (s : Fs) (ino : InodeId) (off size : BitVec 64) : Prop :=
  let bsize := s.sb.bsize.toNat
  let offblk := off.toNat / bsize % 2 ^ 32
  bsize ≠ 0 ∧
    ∀ j < (s.itable ino).nblock, offblk ≤ j → j ≤ (size + off).toNat / bsize % 2 ^ 32 →
      j < 268 ∧ min ((if j = offblk then off.toNat % bsize else 0) + (size.toNat - (j - offblk) * bsize)) bsize ≤ BUFSIZE

/-- `ext2_read_inode` divides by the block size, and its loop goes from the block of the offset on. -/
theorem decides_ext2ReadInode {s : Fs} (spare : s.Spare) (ino : InodeId) (off size : BitVec 64) :
    Decides .undefined (ext2ReadInode ino off size) s (ReadInBounds s ino off size) fun _ _ => True := by
  unfold ReadInBounds ext2ReadInode
  apply Decides.step FsM.get_run
  dsimp only
  by_cases past : off.toNat > (s.itable ino).size.toNat
  · rw [if_pos past]
    exact (Decides.pure trivial).congr (iff_of_true trivial (.inl past))
  rw [if_neg past]
  by_cases zero : s.sb.bsize.toNat = 0
  · rw [if_pos zero]
    exact (Decides.throw _).congr (iff_of_false id fun either => either.elim past fun both => both.1 zero)
  rw [if_neg zero]
  have word := (s.itable ino).size.isLt
  have first : off.toNat / s.sb.bsize.toNat % 2 ^ 32 = off.toNat / s.sb.bsize.toNat := by
    apply Nat.mod_eq_of_lt
    have le := Nat.div_le_self off.toNat s.sb.bsize.toNat
    omega
  have start : off.toNat / s.sb.bsize.toNat * s.sb.bsize.toNat + off.toNat % s.sb.bsize.toNat = off.toNat := by
    rw [Nat.mul_comm]
    exact Nat.div_add_mod ..
  rw [first]
  apply Decides.congr
  · apply Decides.bind (decides_readBlocks ino _ _ s _ _ _ spare (Nat.mod_lt _ (Nat.pos_of_ne_zero zero)))
    intro bytes t _
    exact Decides.pure trivial
  · rw [start, and_true]
    constructor
    · intro all
      right
      exact ⟨zero, fun j lt ge last => all j ge (by omega) last⟩
    · intro either j ge lt last
      exact (either.resolve_left past).2 j (by omega) ge last

theorem decides_wInodeLoop {s : Fs} (spare : s.Spare) (ino : InodeId) (buf : Nat → BitVec 8) (off size : BitVec 64) :
    Decides .undefined (wInodeLoop s.sb.bsize.toNat ino buf off size) s (WriteInBounds s ino off size) fun _ _ => True := by
  unfold WriteInBounds wInodeLoop
  by_cases zero : s.sb.bsize.toNat = 0
  · rw [if_pos zero]
    exact (Decides.throw _).congr (iff_of_false id fun both => both.1 zero)
  rw [if_neg zero]
  apply Decides.step FsM.get_run
  have loop := decides_writeBlocks ino buf ((size + off).toNat / s.sb.bsize.toNat % 2 ^ 32)
    ((s.itable ino).nblock - off.toNat / s.sb.bsize.toNat % 2 ^ 32) s (off.toNat / s.sb.bsize.toNat % 2 ^ 32) size.toNat
    (off.toNat % s.sb.bsize.toNat) 0 spare (Nat.mod_lt _ (Nat.pos_of_ne_zero zero))
  apply (loop.mono fun _ _ _ => trivial).congr
  constructor
  · intro all
    exact ⟨zero, fun j lt ge last => all j ge (by omega) last⟩
  · intro ⟨_, all⟩ j ge lt last
    exact all j (by omega) ge last

/-- The places of `ext2.c` that compute an index into the data of a buffer: the scans and the bit
of the two bitmaps, the record of an inode that is loaded or stored, the entry of an indirect
block, and the copies out of a file and into one. -/
inductive BufferUse
  | allocInum
  | allocBlock
  | getInode (inum : BitVec 32)
  | sync (ino : InodeId)
  | block (ino : InodeId) (bi : Nat)
  | read (ino : InodeId) (off size : BitVec 64)
  | write (ino : InodeId) (buf : Nat → BitVec 8) (off size : BitVec 64)

namespace BufferUse

/-- What is done there. -/
def run : BufferUse → FsM Unit
  | allocInum => do let _ ← ext2AllocInum
  | allocBlock => do let _ ← ext2AllocBlock
  | getInode inum => do let _ ← ext2GetInode inum
  | sync ino => inodeSync ino
  | block ino bi => do let _ ← ext2InodeBlock ino bi
  | read ino off size => do let _ ← ext2ReadInode ino off size
  | write ino buf off size => do
    let s ← get
    wInodeLoop s.sb.bsize.toNat ino buf off size

/-- Divisors are not 0, and indices stay below 1024. -/
def InBounds (s : Fs) : BufferUse → Prop
  | allocInum => s.sb.bsize.toNat ≤ BUFSIZE ∨ s.HasBit s.sb.inode_bitmap
  | allocBlock => s.sb.bsize.toNat ≤ BUFSIZE ∨ s.HasBit s.sb.block_bitmap
  | getInode inum => s.sb.Divides ∧ (s.inodeSlot inum = none ∨ s.sb.recordOff inum + 100 ≤ BUFSIZE)
  | sync ino => s.sb.Divides ∧ s.sb.recordOff (s.itable ino).inum + 100 ≤ BUFSIZE
  | block _ bi => bi < 268
  | read ino off size => ReadInBounds s ino off size
  | write ino _ off size => WriteInBounds s ino off size

/-- The blocks it visits are below the end of the single indirect block. -/
def Reached (s : Fs) : BufferUse → Prop
  | block _ bi => bi < 268
  | read ino _ _ => (s.itable ino).nblock ≤ 268
  | write ino _ _ _ => (s.itable ino).nblock ≤ 268
  | _ => True

/-- A use is undefined just where it is not in bounds. -/
theorem decides (use : BufferUse) {s : Fs} (spare : s.Spare) : Decides .undefined use.run s (use.InBounds s) fun _ _ => True := by
  cases use with
  | allocInum => exact (decides_allocBit Superblock.inode_bitmap Int.one_nonneg (spare.room _)).drop
  | allocBlock => exact (decides_allocBit Superblock.block_bitmap le_rfl (spare.room _)).drop
  | getInode inum => exact (decides_ext2GetInode spare inum).drop
  | sync ino => exact decides_inodeSync spare ino
  | block ino bi => exact (decides_ext2InodeBlock spare ino bi).drop
  | read ino off size => exact (decides_ext2ReadInode spare ino off size).drop
  | write ino buf off size => exact Decides.step FsM.get_run (decides_wInodeLoop spare ino buf off size)

/-- On a volume with blocks of 1024 bytes and records of an ext2 inode, every use is in bounds
that visits no block behind the single indirect one. -/
theorem inBounds_of_records {s : Fs} (records : s.sb.Records) (use : BufferUse) (reached : use.Reached s) : use.InBounds s := by
  have size : s.sb.bsize.toNat = BUFSIZE := by rw [records.bsize]; rfl
  have least := records.least
  have divides : s.sb.Divides := ⟨by omega, (records.fits 0).1⟩
  cases use with
  | allocInum => exact .inl size.le
  | allocBlock => exact .inl size.le
  | getInode inum => exact ⟨divides, .inr (records.fits inum).2⟩
  | sync ino => exact ⟨divides, (records.fits _).2⟩
  | block ino bi => exact reached
  | read ino off len =>
    right
    constructor
    · rw [size]
      decide
    · intro j lt _ _
      exact ⟨Nat.lt_of_lt_of_le lt reached, (min_le_right _ _).trans size.le⟩
  | write ino buf off len =>
    constructor
    · rw [size]
      decide
    · intro j lt _ _
      exact ⟨Nat.lt_of_lt_of_le lt reached, (min_le_right _ _).trans size.le⟩

end BufferUse

/-- **Indices and divisors.** Each use is free of divisions by 0 and of indices outside the 1024
bytes of a buffer just where it is in bounds. On a volume with blocks of 1024 bytes and records
of at least 128 bytes that fit a block, that is every use that visits no block behind the single
indirect one. -/
theorem buffer_uses_in_bounds_iff (s : Fs) (use : BufferUse) :
    (s.Spare → (use.run s ≠ .error .undefined ↔ use.InBounds s)) ∧ (s.sb.Records → use.Reached s → use.InBounds s) := by
  constructor
  · intro spare
    rw [ne_eq, (use.decides spare).fails_iff, not_not]
  · intro records reached
    exact use.inBounds_of_records records reached

/-- On the volume with the file of ten bytes: the first twenty bytes of it. -/
theorem buffer_uses_in_bounds_iff_note : (BufferUse.read 0 0#64 20#64).run (noteFs 10) ≠ .error .undefined := by
  have main := buffer_uses_in_bounds_iff (noteFs 10) (.read 0 0#64 20#64)
  have reached : (BufferUse.read 0 0#64 20#64).Reached (noteFs 10) := by
    show ((noteFs 10).itable 0).nblock ≤ 268
    rw [noteFs_file.2]
    decide
  exact (main.1 (noteFs_spare 10)).2 (main.2 (noteMount_records 10) reached)

/-- The volume with a root directory, as revision 0 of ext2 has it: `s_inode_size` is 0. -/
def oldVolume (bno : BitVec 32) : Block := fun i => if bno = 1#32 ∧ (i : Nat) = 88 then 0#8 else treeVolume bno i

/-- That volume, mounted. -/
def oldFs : Fs := { Fs.boot oldVolume with sb := superblockOf (oldVolume 1#32) (oldVolume 2#32) }

/-- `ext2_init` takes it, and the lookup of the root directory divides by 0. On a volume with
blocks of 1024 bytes, a file that counts 538 sectors or more is read behind its single indirect
block. -/
theorem lookup_divides_by_zero : ext2Init (Fs.boot oldVolume) = .ok ((), oldFs) ∧
    ext2GetInode EXT2_ROOT_INO oldFs = .error .undefined ∧ ¬ (BufferUse.getInode EXT2_ROOT_INO).InBounds oldFs := by
  have zero : oldFs.sb.inode_size = 0 := by decide +kernel
  have bad : ¬ oldFs.sb.Divides := fun divides => divides.1 (by rw [zero]; rfl)
  refine ⟨Fs.boot_mounts (by simp [le16, byte, oldVolume, treeVolume, smallVolume, BUFSIZE]), ?_, fun inside => bad inside.1⟩
  exact (decides_ext2GetInode ⟨0, 1, by decide, rfl, rfl⟩ EXT2_ROOT_INO).fails fun inside => bad inside.1

end Aarch64Os.Kernel
