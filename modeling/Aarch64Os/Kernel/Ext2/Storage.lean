import Aarch64Os.Kernel.Ext2.Backing
import Aarch64Os.Kernel.Ext2.FailedCalls

/-!
# Storage for every byte, over runs (`kernel/ext2.c`)

`ext2_w_inode` raises the size first, and grows the inode only if the last block of the write lies
behind those it counts; nobody looks at a failure to grow. `ext2_new_inode` gives a directory the
size of a block. On a sound volume each of these stays sound as long as the blocks that the new
sizes count are there in the end.
-/

namespace Aarch64Os.Kernel
set_option autoImplicit false
open Base

section Blocks
variable {s t : Fs} {ino : InodeId} {de : NewDirent}

/-- A buffer that is still held keeps its block when another reference is given back. -/
theorem bioFree_bno (s : Fs) (d : BufId) : After (bioFree d) s fun _ t =>
    ∀ b, (t.bcache b).ref ≠ 0 → (t.bcache b).bno = (s.bcache b).bno := by
  intro _ t run b held
  unfold bioFree at run
  split at run
  case isTrue => cases run
  case isFalse =>
  cases run
  rcases eq_or_ne b d with rfl | ne
  · simp only [Bcache.set_self] at held ⊢
    split at held
    · exact absurd rfl held
    case isFalse more => rw [if_neg more]
  · show (s.bcache.set d _ b).bno = _
    rw [Bcache.set_ne _ _ ne]

/-- `ext2_inode_block` hands out a buffer of the block that the map says. -/
theorem maps_ext2InodeBlock (s : Fs) (ino : InodeId) (bi : Nat) : After (ext2InodeBlock ino bi) s fun b t =>
    s.Quiet t ∧ s.Steady t ∧ (t.bcache b).ref ≠ 0 ∧
      (s.Mirrored → (12 ≤ bi → (s.itable ino).block 12 ≠ 0) → s.bmap ino bi = some (t.bcache b).bno) := by
  have maps : After (ext2InodeBlock ino bi) s fun b t => (t.bcache b).ref ≠ 0 →
      s.Mirrored → (12 ≤ bi → (s.itable ino).block 12 ≠ 0) → s.bmap ino bi = some (t.bcache b).bno := by
    unfold ext2InodeBlock
    refine After.step FsM.get_run ?_
    split
    case isTrue direct =>
      refine (quiet_bioRead s _).mono ?_
      rintro b t ⟨-, own⟩ - - -
      rw [own]
      exact dif_pos direct
    case isFalse indirect =>
      refine After.bind (mirrored_bioRead s _) ?_
      rintro map t ⟨-, shows⟩
      refine After.step (bufData_runs t map) ?_
      unfold readIndirectBlock
      split
      case isFalse => exact After.bind (After.throw Fault.undefined) fun _ _ (no : False) => no.elim
      case isTrue inside =>
        refine After.bind (quiet_bioRead t _) ?_
        rintro b u ⟨-, own⟩
        refine After.bind (bioFree_bno u map) ?_
        intro _ v same
        apply After.pure
        intro held h pos
        rw [same b held, own, (shows h).2 (pos (by omega))]
        unfold Fs.bmap
        rw [dif_neg indirect, if_pos inside]
  refine (((quiet_ext2InodeBlock s ino bi).and (steady_ext2InodeBlock s ino bi)).and maps).mono ?_
  rintro b t ⟨⟨⟨quiet, -⟩, steady, held⟩, maps⟩
  exact ⟨quiet, steady, held, maps held⟩

/-- A block that the inode counts is written. -/
theorem Fs.Sound.write_block (h : s.Sound) {j : Nat} (lt : j < (s.itable ino).nblock) {u v : Fs} {b : BufId} (quiet : s.Quiet u)
    (maps : s.bmap ino j = some (u.bcache b).bno) (writes : u.Writes v (· = (u.bcache b).bno)) (itable : v.itable = u.itable)
    (steady : s.Steady v) : s.Stays v ∧ v.blockBitmap = s.blockBitmap := by
  apply h.frame (steady.mirrored h.mirrored) (itable.trans quiet.itable) ((quiet.writes _).trans writes)
  rintro _ rfl
  exact .inr (h.mapped_free (.inl ⟨ino, rfl⟩) lt maps)

/-- An inode of more than twelve blocks has an indirect block. -/
theorem Fs.Sound.has_map (h : s.Sound) {j : Nat} (lt : j < (s.itable ino).nblock) : 12 ≤ j → (s.itable ino).block 12 ≠ 0 :=
  fun far => (h.indirect _ (.inl ⟨ino, rfl⟩) (by omega)).1

/-- The loop of `ext2_dirlink` over the blocks of the directory. -/
theorem Fs.Sound.linkBlocks (pdir : InodeId) (de : NewDirent) (left : Nat) : ∀ {s : Fs} (i : Nat), s.Sound →
    i + left ≤ (s.itable pdir).nblock → After (linkBlocks pdir de left i) s fun r t =>
      s.Stays t ∧ t.itable = s.itable ∧ t.blockBitmap = s.blockBitmap ∧ (left = 0 → r = none) := by
  induction left with
  | zero => exact fun i h _ => After.pure ⟨.refl h, rfl, rfl, fun _ => rfl⟩
  | succ left ih =>
    intro s i h inside
    unfold Kernel.linkBlocks
    refine After.step FsM.get_run ?_
    refine After.bind (maps_ext2InodeBlock s pdir i) ?_
    rintro b t ⟨quiet, steady, held, maps⟩
    have lt : i < (s.itable pdir).nblock := by omega
    have own := maps h.mirrored (h.has_map lt)
    refine After.step (bufData_runs t b) ?_
    have taken : ∀ data, After (do
        let r ← writeBlock b data
        pure (some r)) t fun r u => s.Stays u ∧ u.itable = s.itable ∧ u.blockBitmap = s.blockBitmap ∧ (left + 1 = 0 → r = none) := by
      intro data
      refine After.bind ((writes_writeBlock t b data).and (steady_writeBlock held data)) ?_
      rintro r u ⟨⟨-, writes, itable⟩, written⟩
      obtain ⟨stays, bitmap⟩ := h.write_block lt quiet own writes itable (steady.trans written)
      exact After.pure ⟨stays, itable.trans quiet.itable, bitmap, fun zero => absurd zero left.succ_ne_zero⟩
    refine After.bind (after_lift t _) ?_
    rintro ⟨empty, d⟩ _ ⟨-, rfl⟩
    dsimp only
    split
    · exact taken _
    refine After.bind (after_lift _ _) ?_
    rintro len _ ⟨-, rfl⟩
    split
    · exact taken _
    have stays := h.quiet quiet steady
    have bitmap : t.blockBitmap = s.blockBitmap := by
      unfold Fs.blockBitmap
      rw [quiet.sb, quiet.disk]
    refine (ih (i + 1) stays.sound (by rw [quiet.itable]; omega)).mono ?_
    rintro _ u ⟨rest, itable, bitmap', -⟩
    exact ⟨stays.trans rest, itable.trans quiet.itable, bitmap'.trans bitmap, fun zero => absurd zero left.succ_ne_zero⟩

/-- The loop of `ext2_w_inode` over the blocks of the inode. -/
theorem Fs.Sound.writeBlocks (ino : InodeId) (buf : Nat → BitVec 8) (bsize lastblk left : Nat) : ∀ {s : Fs} (i size ooff pos : Nat),
    s.Sound → left = (s.itable ino).nblock - i → After (writeBlocks ino buf bsize lastblk left i size ooff pos) s fun _ t =>
      s.Stays t ∧ t.itable = s.itable := by
  induction left with
  | zero => exact fun i size ooff pos h _ => After.pure ⟨.refl h, rfl⟩
  | succ left ih =>
    intro s i size ooff pos h inside
    unfold Kernel.writeBlocks
    split
    case isFalse => exact After.pure ⟨.refl h, rfl⟩
    case isTrue =>
    refine After.bind (maps_ext2InodeBlock s ino i) ?_
    rintro b t ⟨quiet, steady, held, maps⟩
    have lt : i < (s.itable ino).nblock := by omega
    have own := maps h.mirrored (h.has_map lt)
    have copied : After (copyIn b ooff (fun x => buf (pos + x)) (copySize bsize size ooff)) t fun _ u => ∃ data, u = t.changed b data := by
      unfold copyIn
      refine After.step (bufData_runs t b) ?_
      split
      · exact (After.iff_of_run (setBufData_runs t b _)).2 ⟨_, rfl⟩
      · exact After.throw _
    refine After.bind copied ?_
    rintro _ _ ⟨data, rfl⟩
    refine After.step (bioWrite_changed t b data) ?_
    refine After.bind ((quiet_bioFree _ b).and (steady_bioFree _ b)) ?_
    rintro _ v ⟨quiet', freed⟩
    have writes : t.Writes v (· = (t.bcache b).bno) :=
      ⟨quiet'.sb, fun a ne => by rw [quiet'.disk]; exact Function.update_of_ne ne ..⟩
    obtain ⟨stays, -⟩ := h.write_block lt quiet own writes quiet'.itable ((steady.trans (.stored held data)).trans freed)
    have itable : v.itable = s.itable := quiet'.itable.trans quiet.itable
    refine (ih (i + 1) _ _ _ stays.sound (by rw [itable]; omega)).mono ?_
    rintro _ w ⟨rest, itable'⟩
    exact ⟨stays.trans rest, itable'.trans itable⟩

end Blocks

section Marks
variable {s t : Fs} {k : Nat} {rest : List Nat}

/-- Setting a bit through a buffer. -/
theorem writeBit_runs {b : BufId} {first : Int} (lt : k < 8 * s.sb.bsize.toNat) (byte : k < 8 * BUFSIZE) :
    writeBit first b (first + k) true s = .ok (0, s.stored b (setBit (s.bcache b).data k)) := by
  have chunk : findChunk s.sb.bsize.toNat 0 (first + k - first) = some (0 + k / 8, ((k % 8 : Nat) : Int)) := by
    rw [show first + (k : Int) - first = k by omega]
    exact findChunk_eq _ 0 k lt
  have inside : 0 + k / 8 < BUFSIZE ∧ 0 ≤ ((k % 8 : Nat) : Int) := ⟨by omega, by omega⟩
  rw [writeBit, FsM.bind_of_ok FsM.get_run]
  simp only [chunk]
  rw [FsM.bind_of_ok (bufData_runs ..), dif_pos inside, FsM.bind_of_ok (setBufData_runs ..), FsM.bind_of_ok (bioWrite_changed ..)]
  simp [setBit, show k / 8 < BUFSIZE by omega, show ((k : Int) % 8).toNat = k % 8 by omega]

/-- An allocation sets the bit that its search has found on the disk. -/
theorem mirrored_allocBit (h : s.Mirrored) (bno : Superblock → BitVec 32) {first : Int} (nonneg : 0 ≤ first) (pos : bno s.sb ≠ 0) :
    After (allocBit bno (findFree first) (writeBit first)) s fun num t => t.sb = s.sb ∧ t.itable = s.itable ∧
      findFree first s.sb.bsize (s.disk (bno s.sb)) = .ok num ∧
      (num < 0 ∧ t.disk = s.disk ∨ ∃ k : Nat, num = first + k ∧ k < 8 * BUFSIZE ∧ bit (s.disk (bno s.sb)) k = false ∧
        t.disk = Function.update s.disk (bno s.sb) (setBit (s.disk (bno s.sb)) k)) := by
  unfold allocBit
  refine After.step FsM.get_run ?_
  refine After.bind ((quiet_bioRead s _).and (mirrored_bioRead s _)) ?_
  rintro b t ⟨⟨quiet, own⟩, -, shows⟩
  refine After.step (bufData_runs t b) ?_
  rw [(shows h).2 pos]
  refine After.bind (after_lift t _) ?_
  rintro num _ ⟨found, rfl⟩
  obtain ⟨rfl, -⟩ | ⟨k, rfl, lt, byte, clear, -⟩ := findFree_ok found
  · exact After.pure ⟨quiet.sb, quiet.itable, found, .inl ⟨by decide, quiet.disk⟩⟩
  rw [if_neg (by omega)]
  refine After.step (writeBit_runs (by rw [quiet.sb]; exact lt) byte) ?_
  refine After.bind (quiet_bioFree _ b) ?_
  intro _ u freed
  refine After.pure ⟨freed.sb.trans quiet.sb, freed.itable.trans quiet.itable, found, .inr ⟨k, rfl, byte, clear, ?_⟩⟩
  rw [freed.disk, Fs.stored, own, (shows h).2 pos, quiet.disk]

/-- The bits below the lowest clear bit are set. -/
theorem freeBits_below {data : Block} (free : freeBits data = k :: rest) {j : Nat} (lt : j < k) : bit data j = true := by
  by_contra clear
  have mem : k ∈ freeBits data := by
    rw [free]
    exact List.mem_cons_self
  have bound := (mem_freeBits mem).1
  have earlier : j ∈ freeBits data := List.mem_filter.2 ⟨List.mem_range.2 (by omega), by simpa using clear⟩
  have sorted : (freeBits data).Pairwise (· < ·) := List.pairwise_lt_range.filter _
  rw [free] at sorted earlier
  rcases List.mem_cons.1 earlier with rfl | behind
  · exact lt.false
  · exact lt.asymm (List.rel_of_pairwise_cons sorted behind)

/-- `ext2_alloc_block` takes the lowest clear bit. -/
theorem mirrored_allocBlock (h : s.Mirrored) (laid : s.sb.Laid) (free : freeBits s.blockBitmap = k :: rest) :
    After ext2AllocBlock s fun bn t => bn = k ∧ t.Mirrored ∧ t.sb = s.sb ∧ t.itable = s.itable ∧
      (∀ a, a ≠ s.sb.block_bitmap → t.disk a = s.disk a) ∧ freeBits t.blockBitmap = rest ∧
        ∀ j, bit t.blockBitmap j = (decide (j = k) || bit s.blockBitmap j) := by
  refine ((mirrored_allocBit h Superblock.block_bitmap le_rfl laid.block_bitmap).and (steady_allocBit s _ 0)).mono ?_
  rintro bn t ⟨⟨sb, itable, search, changed⟩, steady⟩
  obtain ⟨found, next⟩ := findFree_freeBits laid.bsize free
  have same : bn = 0 + (k : Int) := Except.ok.inj (search.symm.trans found)
  obtain ⟨neg, -⟩ | ⟨k', eq, byte, -, disk⟩ := changed
  · omega
  obtain rfl : k' = k := by omega
  have bitmap : t.blockBitmap = setBit s.blockBitmap k' := by
    unfold Fs.blockBitmap
    rw [sb, disk, Function.update_self]
  refine ⟨by omega, steady.mirrored h, sb, itable, fun a ne => ?_, by rw [bitmap, next], fun j => ?_⟩
  · rw [disk, Function.update_of_ne ne]
  · rw [bitmap, bit_setBit _ byte]

/-- The block it returns is marked then, also where blocks do not start at 0. -/
theorem inUse_marked (free : freeBits s.blockBitmap = k :: rest) (sb : t.sb = s.sb)
    (bits : ∀ j, bit t.blockBitmap j = (decide (j = k) || bit s.blockBitmap j)) (first : s.sb.first_data_block.toNat ≤ k) :
    t.InUse (BitVec.ofNat 32 k) := by
  have mem : k ∈ freeBits s.blockBitmap := by
    rw [free]
    exact List.mem_cons_self
  have small : k < 2 ^ 32 := (mem_freeBits mem).1.trans (by decide)
  refine ⟨k - s.sb.first_data_block.toNat, ?_, ?_⟩
  · rw [sb, BitVec.toNat_ofNat, Nat.mod_eq_of_lt small]
    omega
  · rw [bits, Bool.or_eq_true, decide_eq_true_eq]
    by_cases zero : s.sb.first_data_block.toNat = 0
    · exact .inl (by omega)
    · exact .inr (freeBits_below free (by omega))

end Marks

/-- The lowest `g` clear bits of the block bitmap have numbers of blocks that hold no metadata. -/
def Fs.Grants (s : Fs) (g : Nat) : Prop :=
  g ≤ (freeBits s.blockBitmap).length ∧ ∀ k ∈ (freeBits s.blockBitmap).take g,
    k ≠ 0 ∧ s.sb.first_data_block.toNat ≤ k ∧ ¬ s.Kept (BitVec.ofNat 32 k)

/-- A block of data that is marked. -/
structure Fs.Granted (s : Fs) (a : BitVec 32) : Prop where
  pos : a ≠ 0
  used : s.InUse a
  free : ¬ s.Kept a

section Grants
variable {s t : Fs} {g k : Nat} {rest : List Nat} {a : BitVec 32}

theorem Fs.Granted.stays (h : s.Granted a) (stays : s.Stays t) : t.Granted a :=
  ⟨h.pos, stays.used a h.used, fun kept => h.free (stays.kept a kept)⟩

theorem Fs.Grants.less {g' : Nat} (h : s.Grants g) (le : g' ≤ g) : s.Grants g' :=
  ⟨le.trans h.1, fun k mem => h.2 k (List.take_subset_take_left _ le mem)⟩

/-- Without an allocation there is as much to hand out. -/
theorem Fs.Grants.stays (h : s.Grants g) (stays : s.Stays t) (bitmap : t.blockBitmap = s.blockBitmap) : t.Grants g := by
  unfold Fs.Grants
  rw [bitmap, stays.sb]
  exact ⟨h.1, fun k mem => ⟨(h.2 k mem).1, (h.2 k mem).2.1, fun kept => (h.2 k mem).2.2 (stays.kept _ kept)⟩⟩

/-- Behind an allocation there is one block less. -/
theorem Fs.Grants.behind (h : s.Grants (g + 1)) (stays : s.Stays t) (free : freeBits s.blockBitmap = k :: freeBits t.blockBitmap) :
    t.Grants g := by
  have enough := h.1
  rw [free, List.length_cons] at enough
  refine ⟨by omega, fun j mem => ?_⟩
  have here := h.2 j (by rw [free, List.take_succ_cons]; exact List.mem_cons_of_mem _ mem)
  rw [stays.sb]
  exact ⟨here.1, here.2.1, fun kept => here.2.2 (stays.kept _ kept)⟩

theorem Fs.Grants.first (h : s.Grants (g + 1)) : ∃ k rest, freeBits s.blockBitmap = k :: rest ∧ k < 8 * BUFSIZE ∧ k ≠ 0 ∧
    s.sb.first_data_block.toNat ≤ k ∧ ¬ s.Kept (BitVec.ofNat 32 k) := by
  obtain ⟨k, rest, free⟩ := List.exists_cons_of_length_pos (Nat.lt_of_lt_of_le g.succ_pos h.1)
  have mem : k ∈ freeBits s.blockBitmap := by
    rw [free]
    exact List.mem_cons_self
  refine ⟨k, rest, free, (mem_freeBits mem).1, h.2 k ?_⟩
  rw [free, List.take_succ_cons]
  exact List.mem_cons_self

theorem ofNat_pos (small : k < 8 * BUFSIZE) (pos : k ≠ 0) : BitVec.ofNat 32 k ≠ 0 := by
  intro zero
  have value := congrArg BitVec.toNat zero
  rw [BitVec.toNat_ofNat, Nat.mod_eq_of_lt (small.trans (by decide))] at value
  exact pos value

end Grants

section Growth
variable {s t : Fs} {ino : InodeId} {n g : Nat}

/-- The state in which an inode has another size. -/
def Fs.sized (s : Fs) (ino : InodeId) (size : BitVec 32) : Fs := s.setInode ino fun x => { x with size := size }

theorem Fs.sized_setInode (s : Fs) (ino : InodeId) (size : BitVec 32) (f : Inode → Inode) (same : ∀ x z, f { x with size := z } = { f x with size := z }) :
    (s.setInode ino f).sized ino size = (s.sized ino size).setInode ino f := by
  unfold Fs.sized Fs.setInode
  simp only [Function.update_self, Function.update_idem]
  rw [same (s.itable ino) size]

/-- The loop of `ext2_grow_inode_block`, from the first slot that the inode does not count on. Its
size may be that of a later time; with the one it had, the volume is sound all along. -/
theorem Fs.Sound.growSlots (ino : InodeId) (size : BitVec 32) (n left : Nat) : ∀ {s : Fs} (i : Nat), (s.sized ino size).Sound →
    (s.sized ino size).Grants left → (s.itable ino).nblock = n → n + i + left ≤ 12 →
      After (growSlots ino n left i) s fun _ t => (s.sized ino size).Stays (t.sized ino size) ∧
        t.itable ino = { s.itable ino with block := (t.itable ino).block } ∧
        (∀ k, k < n + i → (t.itable ino).slot k = (s.itable ino).slot k) ∧
        ∀ k, n + i ≤ k → k < n + i + left → (t.sized ino size).Granted ((t.itable ino).slot k) := by
  induction left with
  | zero => exact fun i h _ _ _ => After.pure ⟨.refl h, rfl, fun _ _ => rfl, fun k ge lt => by omega⟩
  | succ left ih =>
    intro s i h grants count room
    obtain ⟨k, rest, free, small, pos, first, out⟩ := grants.first
    have mirrored : s.Mirrored := ⟨h.mirrored.clear, h.mirrored.shows, h.mirrored.once⟩
    unfold Kernel.growSlots
    refine After.bind (mirrored_allocBlock mirrored h.laid free) ?_
    rintro _ t ⟨rfl, mirrored', sb, itable, disk, next, bits⟩
    refine After.step FsM.get_run ?_
    rw [dif_pos (by omega)]
    refine After.step (FsM.set_run _) ?_
    have number : BitVec.ofInt 32 (k : Int) = BitVec.ofNat 32 k := BitVec.ofInt_natCast 32 k
    rw [number]
    -- the bit is set, and then the slot
    have marked : (s.sized ino size).Stays (t.sized ino size) := by
      refine h.mark ⟨mirrored'.clear, mirrored'.shows, mirrored'.once⟩ sb ?_ disk fun j set => ?_
      · show Function.update t.itable _ _ = Function.update s.itable _ _
        rw [itable]
      · show bit t.blockBitmap j = true
        rw [bits, show bit s.blockBitmap j = true from set, Bool.or_true]
    have granted : (t.sized ino size).Granted (BitVec.ofNat 32 k) :=
      ⟨ofNat_pos small pos, inUse_marked (s := s.sized ino size) (t := t.sized ino size) free sb bits first, fun kept => out (marked.kept _ kept)⟩
    have slot : n + i < 15 := by omega
    let f : Inode → Inode := fun x => { x with block := Function.update x.block ⟨n + i, slot⟩ (BitVec.ofNat 32 k) }
    have other : ∀ x m, m < 15 → m ≠ n + i → (f x).slot m = x.slot m := by
      intro x m lt ne
      apply Function.update_of_ne
      intro same
      have value := congrArg Fin.val same
      rw [Fin.val_ofNat, Nat.mod_eq_of_lt lt] at value
      exact ne value
    have here : ∀ x, (f x).slot (n + i) = BitVec.ofNat 32 k := by
      intro x
      have index : Fin.ofNat 15 (n + i) = ⟨n + i, slot⟩ := Fin.ext (Nat.mod_eq_of_lt slot)
      unfold Inode.slot
      rw [index]
      exact Function.update_self ..
    have stored : (t.sized ino size).Stays ((t.setInode ino f).sized ino size) := by
      rw [Fs.sized_setInode t ino size f fun _ _ => rfl]
      refine marked.sound.setInode_within ⟨⟨rfl, fun m lt => Function.update_of_ne ?_ ..⟩, le_rfl⟩ rfl rfl
      rintro rfl
      have counted : ((t.sized ino size).itable ino).nblock = n := by
        simp only [Fs.sized, Fs.setInode_self, itable]
        exact count
      rw [counted] at lt
      simp only at lt
      omega
    have total := marked.trans stored
    have entry : (t.setInode ino f).itable ino = f (s.itable ino) := by rw [Fs.setInode_self, itable]
    have behind : freeBits (s.sized ino size).blockBitmap = k :: freeBits ((t.setInode ino f).sized ino size).blockBitmap := by
      rw [free, ← next]
      rfl
    refine (ih (i + 1) total.sound (grants.behind total behind) ?_ (by omega)).mono ?_
    · rw [entry]
      exact count
    · rintro _ u ⟨stays, rest, low, high⟩
      rw [entry] at rest low
      refine ⟨total.trans stays, rest, fun m lt => ?_, fun m ge lt => ?_⟩
      · rw [low m (by omega), other _ m (by omega) (by omega)]
      · by_cases this : m = n + i
        · subst this
          rw [low _ (by omega), here]
          exact (granted.stays stored).stays stays
        · exact high m (by omega) (by omega)

theorem Fs.sized_back (s : Fs) (ino : InodeId) (size : BitVec 32) : (s.sized ino size).sized ino (s.itable ino).size = s := by
  unfold Fs.sized Fs.setInode
  simp only [Function.update_self, Function.update_idem, Function.update_eq_self]

/-- A write up to block `last` that raises the size to `size` grows the inode as it is to: the direct
slots that it does not count yet are the empty ones, there are blocks to put there, and the blocks
that it counts are marked. -/
structure Fs.GrowsTo (s : Fs) (ino : InodeId) (last : Nat) (size : BitVec 32) : Prop where
  counted : (s.itable ino).nblock < last
  direct : last ≤ 12
  ends : size.toNat ≤ last * 1024
  first : (s.itable ino).freeSlot = some (s.itable ino).nblock
  grants : s.Grants (last - (s.itable ino).nblock)
  used : ∀ j < (s.itable ino).nblock, s.InUse ((s.itable ino).slot j)

theorem Inode.nblock_add {x : Inode} {n g : Nat} (count : x.nblock = n) (few : n + g ≤ 12) :
    ({ x with blocks := x.blocks + BitVec.ofNat 32 g * 2#32 } : Inode).nblock = n + g := by
  unfold Inode.nblock at count ⊢
  simp only [BitVec.toNat_add, BitVec.toNat_mul, BitVec.toNat_ofNat]
  omega

/-- An inode counts more blocks and bytes, which its direct slots hold. -/
theorem Fs.Sound.recount (h : s.Sound) (count : (s.itable ino).nblock = n) (few : n + g ≤ 12) {size : BitVec 32}
    (ends : size.toNat ≤ (n + g) * 1024) (granted : ∀ j < n + g, s.Granted ((s.itable ino).slot j)) :
    s.Stays (s.setInode ino fun x => { x with size := size, blocks := x.blocks + BitVec.ofNat 32 g * 2#32 }) := by
  have nblock : ({ s.itable ino with size := size, blocks := (s.itable ino).blocks + BitVec.ofNat 32 g * 2#32 } : Inode).nblock = n + g :=
    Inode.nblock_add count few
  have bsize : s.sb.bsize.toNat = 1024 := by
    rw [h.laid.bsize]
    rfl
  have mapped : ∀ j < n + g, s.mapOf { s.itable ino with size := size, blocks := (s.itable ino).blocks + BitVec.ofNat 32 g * 2#32 } j =
      some ((s.itable ino).slot j) := fun j lt => Fs.mapOf_direct s _ (by omega)
  refine h.renew ⟨?_, fun j inside => ?_⟩ (nblock.trans_le few) (fun j lt a here => ?_) rfl rfl
  · rw [nblock, bsize]
    exact ends
  · rw [bsize] at inside
    have lt : j < n + g := Nat.lt_of_mul_lt_mul_right (inside.trans_le ends)
    exact ⟨_, mapped j lt, (granted j lt).pos, (granted j lt).used⟩
  · rw [nblock] at lt
    rw [mapped j lt] at here
    cases here
    exact (granted j lt).free

/-- `ext2_grow_inode_block`, when the size has been raised already. -/
theorem Fs.Sound.growInodeBlock (h : s.Sound) {last : Nat} {size : BitVec 32} (grows : s.GrowsTo ino last size)
    (number : s.sb.Numbers (s.itable ino).inum) :
    After (ext2GrowInodeBlock ino (BitVec.ofNat 32 (last - (s.itable ino).nblock))) (s.sized ino size) fun _ t => s.Stays t := by
  have low := grows.counted
  have direct := grows.direct
  obtain ⟨g, rfl⟩ : ∃ g, last = (s.itable ino).nblock + g := Nat.exists_eq_add_of_le low.le
  have entry : (s.sized ino size).itable ino = { s.itable ino with size := size } := Function.update_self ..
  have first : ((s.sized ino size).itable ino).freeSlot = some (s.itable ino).nblock := by
    rw [entry]
    exact grows.first
  have count : (BitVec.ofNat 32 g).toInt.toNat = g := by
    have whole : (BitVec.ofNat 32 g).toNat = g := by
      rw [BitVec.toNat_ofNat, Nat.mod_eq_of_lt]
      omega
    rw [BitVec.toInt_eq_toNat_of_lt (by omega), whole]
    rfl
  have grants := grows.grants
  rw [Nat.add_sub_cancel_left] at grants ⊢
  unfold ext2GrowInodeBlock
  refine After.step FsM.get_run ?_
  rw [first]
  simp only [count]
  have loop := Fs.Sound.growSlots (s := s.sized ino size) ino (s.itable ino).size (s.itable ino).nblock g 0
  rw [Fs.sized_back] at loop
  refine After.bind (loop h grants (by rw [entry]; rfl) (by omega)) ?_
  rintro _ u ⟨stays, same, kept, fresh⟩
  rw [entry] at same kept
  refine After.step (FsM.modify_run _) ?_
  -- the size it has now is that of the grown inode
  have two : u.sb.bsize / 512#32 = 2#32 := by
    rw [show u.sb = s.sb from stays.sb, h.laid.bsize]
    rfl
  have whole : u.setInode ino (fun x => { x with blocks := x.blocks + BitVec.ofNat 32 g * (u.sb.bsize / 512#32) }) =
      (u.sized ino (s.itable ino).size).setInode ino fun x =>
        { x with size := size, blocks := x.blocks + BitVec.ofNat 32 g * 2#32 } := by
    rw [two]
    unfold Fs.sized Fs.setInode
    simp only [Function.update_self, Function.update_idem]
    rw [same]
  have slots : ((u.sized ino (s.itable ino).size).itable ino).slot = (u.itable ino).slot := by
    rw [Fs.sized, Fs.setInode_self]
    rfl
  have nblock : ((u.sized ino (s.itable ino).size).itable ino).nblock = (s.itable ino).nblock := by
    rw [Fs.sized, Fs.setInode_self, same]
    rfl
  rw [whole]
  have renewed := stays.trans (stays.sound.recount nblock direct grows.ends fun j lt => ?_)
  · refine After.bind (renewed.sound.sync (renewed.numbers ino number)) ?_
    rintro _ t ⟨synced, -⟩
    exact After.pure (renewed.trans synced)
  · rw [slots]
    by_cases old : j < (s.itable ino).nblock
    · rw [kept j old]
      have free : ¬ s.Kept ((s.itable ino).slot j) := h.mapped_free (.inl ⟨ino, rfl⟩) old (Fs.mapOf_direct s _ (by omega))
      exact Fs.Granted.stays ⟨(Inode.freeSlot_some grows.first).2.2 j old, grows.used j old, free⟩ stays
    · exact fresh j (by omega) (by omega)

/-- The size behind a write that does not start behind the end. -/
def Inode.sizeAfter (x : Inode) (off size : BitVec 64) : BitVec 32 :=
  if (off + size).toNat > x.size.toNat then (off + size).setWidth 32 else x.size

/-- `lastblk` of a write, in blocks of 1024 bytes. -/
def lastBlock (off size : BitVec 64) : Nat := (size + off).toNat / 1024 % 2 ^ 32

/-- A write to an inode that is in use. Its last block is none behind those that the inode counts,
and these hold the new size, or the inode grows up to it. -/
def Fs.StoresWrite (s : Fs) (ino : InodeId) (off size : BitVec 64) : Prop :=
  (s.itable ino).ref ≠ 0 ∧ (off.toNat ≤ (s.itable ino).size.toNat →
    lastBlock off size ≤ (s.itable ino).nblock ∧ s.Backed { s.itable ino with size := (s.itable ino).sizeAfter off size } ∨
      s.GrowsTo ino (lastBlock off size) ((s.itable ino).sizeAfter off size))

/-- **A write** to an inode whose blocks hold what it is to count. -/
theorem Fs.Sound.write (h : s.Sound) (buf : Nat → BitVec 8) {off size : BitVec 64} (stores : s.StoresWrite ino off size) :
    After (ext2WInode ino buf off size) s fun _ t => s.Stays t := by
  obtain ⟨used, stores⟩ := stores
  have number := h.inum ino used
  unfold ext2WInode
  refine After.step FsM.get_run ?_
  dsimp only
  split
  · exact After.pure (.refl h)
  rename_i inside
  have bsize : s.sb.bsize.toNat = 1024 := by
    rw [h.laid.bsize]
    rfl
  have raised : (if (off + size).toNat > (s.itable ino).size.toNat then
      s.setInode ino fun x => { x with size := (off + size).setWidth 32 } else s) = s.sized ino ((s.itable ino).sizeAfter off size) := by
    unfold Inode.sizeAfter
    split
    · rfl
    · unfold Fs.sized Fs.setInode
      rw [Function.update_eq_self]
  refine After.step (FsM.set_run _) ?_
  rw [raised, if_neg (by omega)]
  have grown : After (growTo ino (lastBlock off size)) (s.sized ino ((s.itable ino).sizeAfter off size)) fun _ t => s.Stays t := by
    have entry : (s.sized ino ((s.itable ino).sizeAfter off size)).itable ino = { s.itable ino with size := (s.itable ino).sizeAfter off size } :=
      Function.update_self ..
    unfold growTo
    refine After.step FsM.get_run ?_
    rw [entry]
    rcases stores (by omega) with ⟨low, backed⟩ | grows
    · rw [if_neg (by exact Nat.not_lt.2 low)]
      apply After.pure
      refine h.setInode (y := s.itable ino) (.inl ⟨ino, rfl⟩) ⟨rfl, fun _ _ => rfl⟩ backed (fun _ => number) id
    · rw [if_pos (by exact grows.counted)]
      refine After.bind (h.growInodeBlock grows number) ?_
      exact fun _ t stays => After.pure stays
  have last : (size + off).toNat / s.sb.bsize.toNat % 2 ^ 32 = lastBlock off size := by
    rw [bsize]
    rfl
  rw [last]
  refine After.bind grown ?_
  intro _ t stays
  refine After.step FsM.get_run ?_
  refine After.bind (stays.sound.writeBlocks ino buf _ _ _ _ _ _ _ rfl) ?_
  rintro _ u ⟨written, -⟩
  have total := stays.trans written
  refine After.bind (total.sound.sync (total.numbers ino number)) ?_
  rintro _ v ⟨synced, -⟩
  exact After.pure (total.trans synced)

end Growth

/-- An inode that an entry is put into counts a block, or its first slot is empty and there is a
block to put there. -/
def Fs.HasPlace (s : Fs) (x : Inode) : Prop := x.nblock = 0 → x.slot 0 = 0 ∧ s.Grants 1

/-- An entry was put into the blocks of the directory, or it has got its first block. -/
def Fs.Linked (s t : Fs) (pdir : InodeId) (r : Int) : Prop :=
  (t.itable = s.itable ∧ t.blockBitmap = s.blockBitmap ∧ (0 ≤ r → (s.itable pdir).nblock ≠ 0)) ∨
    (s.itable pdir).nblock = 0 ∧ (∃ k, freeBits s.blockBitmap = k :: freeBits t.blockBitmap) ∧
      (∀ i, i ≠ pdir → t.itable i = s.itable i) ∧ (t.itable pdir).nblock = 1 ∧ t.Granted ((t.itable pdir).slot 0)

section Entries
variable {s t : Fs} {pdir ino dir : InodeId} {de : NewDirent}

theorem Fs.Quiet.blockBitmap (quiet : s.Quiet t) : t.blockBitmap = s.blockBitmap := by
  unfold Fs.blockBitmap
  rw [quiet.sb, quiet.disk]

/-- The first slot of an inode that is empty. -/
theorem Inode.freeSlot_zero {x : Inode} (empty : x.slot 0 = 0) : x.freeSlot = some 0 := by
  unfold Inode.freeSlot
  exact List.find?_range_eq_some.2 ⟨decide_eq_true empty, List.mem_range.2 (by decide), fun k lt => absurd lt k.not_lt_zero⟩

/-- An inode without blocks gets its first one, from an allocation. -/
theorem Fs.Sound.append (h : s.Sound) (number : s.sb.Numbers (s.itable pdir).inum) (count : (s.itable pdir).nblock = 0)
    (empty : (s.itable pdir).slot 0 = 0) {k : Nat} (granted : s.Granted (BitVec.ofNat 32 k)) :
    After (ext2AppendInodeBlock pdir k) s fun _ t => s.Stays t ∧ t.blockBitmap = s.blockBitmap ∧
      (∀ i, i ≠ pdir → t.itable i = s.itable i) ∧ (t.itable pdir).nblock = 1 ∧ (t.itable pdir).slot 0 = BitVec.ofNat 32 k := by
  unfold ext2AppendInodeBlock
  refine After.step FsM.get_run ?_
  rw [Inode.freeSlot_zero empty]
  refine After.step (FsM.modify_run _) ?_
  have two : s.sb.bsize / 512#32 = 2#32 := by
    rw [h.laid.bsize]
    rfl
  rw [two, BitVec.ofInt_natCast]
  have sized : (s.itable pdir).size.toNat = 0 := by
    have least := (h.backed _ (.inl ⟨pdir, rfl⟩)).size
    rw [count] at least
    omega
  let f : Inode → Inode := fun x => { x with block := Function.update x.block (Fin.ofNat 15 0) (BitVec.ofNat 32 k), blocks := x.blocks + 2#32 }
  have nblock : (f (s.itable pdir)).nblock = 1 := Inode.nblock_add (g := 1) count (by decide)
  have slot : (f (s.itable pdir)).slot 0 = BitVec.ofNat 32 k := Function.update_self (Fin.ofNat 15 0) _ (s.itable pdir).block
  have renewed := h.renew (i := pdir) (f := f) ⟨?_, fun j inside => ?_⟩ (nblock.trans_le (by decide)) (fun j lt a here => ?_) rfl rfl
  · refine After.bind (renewed.sound.sync (renewed.numbers pdir number)) ?_
    rintro _ t ⟨synced, itable, bitmap⟩
    refine After.pure ⟨renewed.trans synced, bitmap, fun i ne => ?_, ?_⟩
    · rw [itable]
      exact Function.update_of_ne ne ..
    · rw [itable, Fs.setInode_self]
      exact ⟨nblock, slot⟩
  · show (s.itable pdir).size.toNat ≤ _
    omega
  · change _ < (s.itable pdir).size.toNat at inside
    omega
  · obtain rfl : j = 0 := by
      rw [nblock] at lt
      omega
    rw [Fs.mapOf_direct _ _ (by decide), slot] at here
    cases here
    exact granted.free

/-- **An entry** is put into a directory that has a place for it. -/
theorem Fs.Sound.dirlink (h : s.Sound) (number : s.sb.Numbers (s.itable pdir).inum) (place : s.HasPlace (s.itable pdir)) :
    After (ext2Dirlink pdir de) s fun r t => s.Stays t ∧ s.Linked t pdir r := by
  unfold ext2Dirlink
  refine After.bind ((quiet_ext2SearchDir s pdir _).and (steady_ext2SearchDir s pdir _)) ?_
  rintro found t ⟨quiet, steady⟩
  have searched := h.quiet quiet steady
  have same : t.itable = s.itable ∧ t.blockBitmap = s.blockBitmap := ⟨quiet.itable, quiet.blockBitmap⟩
  split
  · exact After.pure ⟨searched, .inl ⟨same.1, same.2, fun nonneg => absurd nonneg (by decide)⟩⟩
  refine After.step FsM.get_run ?_
  refine After.bind (searched.sound.linkBlocks pdir de _ 0 (Nat.zero_add _).le) ?_
  rintro r u ⟨linked, itable, bitmap, none⟩
  have total := searched.trans linked
  have same' : u.itable = s.itable ∧ u.blockBitmap = s.blockBitmap := ⟨itable.trans same.1, bitmap.trans same.2⟩
  cases r with
  | some r =>
    refine After.pure ⟨total, .inl ⟨same'.1, same'.2, fun _ zero => ?_⟩⟩
    rw [same.1] at none
    exact Option.some_ne_none r (none zero)
  | none =>
  refine After.step FsM.get_run ?_
  split
  case isFalse => exact After.pure ⟨total, .inl ⟨same'.1, same'.2, fun nonneg => absurd nonneg (by decide)⟩⟩
  case isTrue blank =>
  -- the directory gets a block, and the entry is the first in it
  rw [same'.1] at blank
  obtain ⟨empty, grants⟩ := place blank
  have grants' := grants.stays total same'.2
  obtain ⟨k, rest, free, small, pos, first, out⟩ := grants'.first
  refine After.bind (mirrored_allocBlock total.sound.mirrored total.sound.laid free) ?_
  rintro _ v ⟨rfl, mirrored, sb, itable', disk, next, bits⟩
  have marked := total.sound.mark mirrored sb itable' disk fun j set => by rw [bits, set, Bool.or_true]
  have granted : v.Granted (BitVec.ofNat 32 k) := ⟨ofNat_pos small pos, inUse_marked free sb bits first, fun kept => out (marked.kept _ kept)⟩
  have number' := (total.trans marked).numbers pdir number
  have table : v.itable = s.itable := itable'.trans same'.1
  refine After.bind (marked.sound.append number' (by rw [table]; exact blank) (by rw [table]; exact empty) granted) ?_
  rintro _ w ⟨appended, bitmap', others, count, slot⟩
  refine After.bind ((quiet_bioRead w _).and (steady_bioRead w _)) ?_
  rintro b x ⟨⟨quiet', own⟩, steady', held⟩
  refine After.step (bufData_runs x b) ?_
  refine ((writes_writeBlock x b _).and (steady_writeBlock held _)).mono ?_
  rintro _ y ⟨⟨-, writes, itable''⟩, written⟩
  rw [own, BitVec.ofInt_natCast] at writes
  have granted' := granted.stays appended
  obtain ⟨stored, bitmap''⟩ := appended.sound.frame ((steady'.trans written).mirrored appended.sound.mirrored) (itable''.trans quiet'.itable)
    ((quiet'.writes _).trans writes) fun a eq => .inr (eq ▸ granted'.free)
  refine ⟨((total.trans marked).trans appended).trans stored, .inr ⟨blank, ⟨k, ?_⟩, fun i ne => ?_, ?_, ?_⟩⟩
  · rw [bitmap'', bitmap', next, ← same'.2, free]
  · rw [itable'', quiet'.itable, others i ne, table]
  · rw [itable'', quiet'.itable]
    exact count
  · rw [itable'', quiet'.itable, slot]
    exact granted'.stays stored

/-- The entries `.` and `..` of a new directory, which has a first block or gets one. -/
theorem Fs.Sound.linkDots (h : s.Sound) (number : s.sb.Numbers (s.itable ino).inum)
    (first : (s.itable ino).nblock = 0 ∧ (s.itable ino).slot 0 = 0 ∨ (s.itable ino).nblock ≠ 0 ∧ s.Granted ((s.itable ino).slot 0))
    (parent : (s.itable dir).nblock = 0 → (s.itable dir).slot 0 = 0)
    (grants : s.Grants ((if (s.itable ino).nblock = 0 then 1 else 0) + if (s.itable dir).nblock = 0 then 1 else 0)) :
    After (linkDots ino dir) s fun r t => s.Stays t ∧ (r = true → t.HasPlace (t.itable dir)) := by
  unfold Kernel.linkDots
  refine After.step (FsM.modify_run _) ?_
  generalize raised : s.setInode dir (fun x => { x with links_count := x.links_count + 1 }) = s'
  have stays : s.Stays s' := by
    rw [← raised]
    exact h.setInode_within ⟨⟨rfl, fun _ _ => rfl⟩, le_rfl⟩ rfl rfl
  have bitmap : s'.blockBitmap = s.blockBitmap := by
    rw [← raised]
    rfl
  have same : ∀ i, (s'.itable i).nblock = (s.itable i).nblock ∧ (s'.itable i).slot = (s.itable i).slot := by
    intro i
    rw [← raised]
    rcases s.setInode_entry dir i fun x => { x with links_count := x.links_count + 1 } with ⟨rfl, entry⟩ | ⟨-, entry⟩
    · rw [entry]
      exact ⟨rfl, rfl⟩
    · rw [entry]
      exact ⟨rfl, rfl⟩
  rw [← (same ino).1, ← (same ino).2] at first
  rw [← (same dir).1, ← (same dir).2] at parent
  rw [← (same ino).1, ← (same dir).1] at grants
  replace grants := grants.stays stays bitmap
  refine After.step FsM.get_run ?_
  refine After.bind (stays.sound.dirlink (stays.numbers ino number) fun blank => ?_) ?_
  · rcases first with ⟨-, empty⟩ | ⟨some, -⟩
    · rw [if_pos blank] at grants
      exact ⟨empty, grants.less (Nat.le_add_right 1 _)⟩
    · exact absurd blank some
  rintro r t ⟨linked, change⟩
  have total := stays.trans linked
  split
  · exact After.pure ⟨total, fun no => absurd no (by decide)⟩
  rename_i nonneg
  -- it has a first block now, and the parent has a place still
  have now : (t.itable ino).nblock ≠ 0 ∧ t.Granted ((t.itable ino).slot 0) ∧ t.HasPlace (t.itable dir) := by
    rcases change with ⟨itable, bitmap', some⟩ | ⟨blank, ⟨k, free⟩, others, count, granted⟩
    · have blocks := some (by omega)
      rw [itable]
      refine ⟨blocks, ?_, fun blank => ⟨parent blank, ?_⟩⟩
      · rcases first with ⟨none, -⟩ | ⟨-, granted⟩
        · exact absurd none blocks
        · exact granted.stays total
      · rw [if_pos blank] at grants
        exact (grants.less (Nat.le_add_left 1 _)).stays linked bitmap'
    · refine ⟨by omega, granted, fun none => ?_⟩
      have ne : dir ≠ ino := by
        rintro rfl
        omega
      rw [others dir ne] at none ⊢
      rw [if_pos blank, if_pos none] at grants
      exact ⟨parent none, grants.behind linked free⟩
  obtain ⟨blocks, granted, place⟩ := now
  refine After.step FsM.get_run ?_
  refine After.bind (linked.sound.dirlink (total.numbers ino number) fun blank => absurd blank blocks) ?_
  rintro r' u ⟨linked', change'⟩
  have total' := total.trans linked'
  split
  · exact After.pure ⟨total', fun no => absurd no (by decide)⟩
  obtain ⟨itable, bitmap', -⟩ : u.itable = t.itable ∧ u.blockBitmap = t.blockBitmap ∧ (0 ≤ r' → (t.itable ino).nblock ≠ 0) :=
    change'.resolve_right fun blank => blocks blank.1
  refine After.step (FsM.modify_run _) ?_
  have bsize : u.sb.bsize = 1024#32 := total'.sound.laid.bsize
  have sized : u.Stays (u.setInode ino fun x => { x with size := u.sb.bsize }) := by
    refine total'.sound.setInode (y := u.itable ino) (.inl ⟨ino, rfl⟩) ⟨rfl, fun _ _ => rfl⟩ ⟨?_, fun j inside => ?_⟩ ?_ id
    · show u.sb.bsize.toNat ≤ (u.itable ino).nblock * u.sb.bsize.toNat
      rw [itable]
      exact Nat.le_mul_of_pos_left _ (Nat.pos_of_ne_zero blocks)
    · obtain rfl : j = 0 := by
        change j * u.sb.bsize.toNat < u.sb.bsize.toNat at inside
        rw [bsize] at inside
        change j * 1024 < 1024 at inside
        omega
      refine ⟨(u.itable ino).slot 0, Fs.mapOf_direct _ _ (by decide), ?_⟩
      rw [itable]
      exact ⟨granted.pos, linked'.used _ granted.used⟩
    · exact fun used => total'.sound.inum ino used
  refine After.pure ⟨total'.trans sized, fun _ => ?_⟩
  have place' : u.HasPlace (u.itable dir) := by
    rw [itable]
    exact fun blank => ⟨(place blank).1, (place blank).2.stays linked' bitmap'⟩
  rcases u.setInode_entry ino dir fun x => { x with size := u.sb.bsize } with ⟨rfl, entry⟩ | ⟨-, entry⟩
  · rw [entry]
    exact fun blank => ⟨(place' blank).1, (place' blank).2.stays sized rfl⟩
  · rw [entry]
    exact fun blank => ⟨(place' blank).1, (place' blank).2.stays sized rfl⟩

end Entries

end Aarch64Os.Kernel
