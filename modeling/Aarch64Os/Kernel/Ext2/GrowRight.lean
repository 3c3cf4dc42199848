import Mathlib
import Aarch64Os.Kernel.Ext2.Effects

/-!
# When growing an inode is right (`kernel/ext2.c`)

`ext2_grow_inode_block` looks for the first empty direct slot, and then stores as many block
numbers as it is asked for from there on, whatever is in the slots and whatever the allocator
returns.
-/

namespace Aarch64Os.Kernel
set_option autoImplicit false
open Base

/-- The block bitmap marks block `a` used. -/
def Fs.InUse (s : Fs) (a : BitVec 32) : Prop := ∃ k, a.toNat = k + s.sb.first_data_block.toNat ∧ bit s.blockBitmap k = true

/-- Slot `n` of the block map. -/
def Inode.slot (x : Inode) (n : Nat) : BitVec 32 := x.block (Fin.ofNat 15 n)

/-- The direct slots that are empty. -/
def Inode.emptySlots (x : Inode) : Nat := ((List.range 12).filter fun n => x.slot n = 0).length

/-- What a call that returns 0 promises: the `g` direct slots from the first empty one on were
empty and hold different blocks that have been marked, the other slots are as they were, the block
count has grown, and no other field has changed. -/
structure GrewRight (s t : Fs) (ino : InodeId) (g n : Nat) : Prop where
  first : (s.itable ino).freeSlot = some n
  direct : n + g ≤ 12
  empty : ∀ i < g, (s.itable ino).slot (n + i) = 0
  marked : ∀ i < g, ¬ s.InUse ((t.itable ino).slot (n + i)) ∧ t.InUse ((t.itable ino).slot (n + i))
  distinct : ∀ i < g, ∀ j < g, (t.itable ino).slot (n + i) = (t.itable ino).slot (n + j) → i = j
  others : ∀ k : Fin 15, (k : Nat) < n ∨ n + g ≤ k → (t.itable ino).block k = (s.itable ino).block k
  fields : t.itable ino = { s.itable ino with
    block := (t.itable ino).block, blocks := (s.itable ino).blocks + BitVec.ofNat 32 g * (s.sb.bsize / 512#32) }

/-- What `ext2_grow_inode_block` is to do: a call that returns 0 keeps its promise, and without as
many empty slots or free blocks it returns -1 and changes neither the inode nor the bitmap. -/
def GrowRight (s : Fs) (ino : InodeId) (nblock : BitVec 32) : Prop :=
  (∀ t, ext2GrowInodeBlock ino nblock s = .ok (0, t) → ∃ n, GrewRight s t ino nblock.toNat n) ∧
  ((s.itable ino).emptySlots < nblock.toNat ∨ (freeBits s.blockBitmap).length < nblock.toNat →
    ∃ t, ext2GrowInodeBlock ino nblock s = .ok (-1, t) ∧ t.itable ino = s.itable ino ∧ t.blockBitmap = s.blockBitmap)

section Slots
variable {x : Inode} {n : Nat}

theorem Inode.freeSlot_some (first : x.freeSlot = some n) : n < 12 ∧ x.slot n = 0 ∧ ∀ k < n, x.slot k ≠ 0 := by
  unfold Inode.freeSlot at first
  obtain ⟨empty, lt, before⟩ := List.find?_range_eq_some.1 first
  refine ⟨List.mem_range.1 lt, of_decide_eq_true empty, fun k ltk => ?_⟩
  have other := before k ltk
  rw [Bool.not_eq_true'] at other
  exact of_decide_eq_false other

/-- No slot before the first empty one is empty. -/
theorem Inode.emptySlots_le (first : x.freeSlot = some n) : x.emptySlots ≤ 12 - n := by
  obtain ⟨lt, -, before⟩ := Inode.freeSlot_some first
  have split : List.range 12 = List.range n ++ (List.range (12 - n)).map (n + ·) := by
    rw [← List.range_add, Nat.add_sub_of_le lt.le]
  have none : (List.range n).filter (fun n => x.slot n = 0) = [] := by
    refine List.filter_eq_nil_iff.2 fun k mem => ?_
    simpa using before k (List.mem_range.1 mem)
  unfold Inode.emptySlots
  rw [split, List.filter_append, none, List.nil_append]
  refine (List.length_filter_le _ _).trans ?_
  simp

/-- Empty direct slots in a row. -/
theorem Inode.le_emptySlots {g : Nat} (room : ∀ i < g, n + i < 12 ∧ x.slot (n + i) = 0) : g ≤ x.emptySlots := by
  have row : (List.range g).map (n + ·) ⊆ (List.range 12).filter fun n => x.slot n = 0 := by
    intro k mem
    obtain ⟨i, lt, rfl⟩ := List.mem_map.1 mem
    obtain ⟨direct, empty⟩ := room i (List.mem_range.1 lt)
    exact List.mem_filter.2 ⟨List.mem_range.2 direct, decide_eq_true empty⟩
  have distinct : ((List.range g).map (n + ·)).Nodup := List.nodup_range.map fun i j same => Nat.add_left_cancel same
  have length := (distinct.subperm row).length_le
  rwa [List.length_map, List.length_range] at length

end Slots

section Marks
variable {s : Fs}

/-- `ext2_alloc_block` marks the lowest clear bit. -/
theorem Coherent.allocBlock_first (h : Coherent s) (bsize : s.sb.bsize = 1024#32) (pos : s.sb.block_bitmap ≠ 0) {k : Nat}
    {rest : List Nat} (free : freeBits s.blockBitmap = k :: rest) : After ext2AllocBlock s fun bn t =>
      bn = k ∧ Coherent t ∧ t.sb = s.sb ∧ t.itable = s.itable ∧ t.blockBitmap = setBit s.blockBitmap k ∧
        ∀ a, a ≠ s.sb.block_bitmap → t.disk a = s.disk a := by
  intro bn t run
  obtain ⟨found, -⟩ := findFree_freeBits bsize free
  obtain ⟨search, -⟩ := h.allocBit_after _ le_rfl bn t run
  have same := search.symm.trans found
  obtain ⟨b, slot, ⟨rfl, -⟩ | ⟨k', rfl, -, -, -, rfl⟩⟩ := h.allocBit_ok le_rfl run
  · cases same
  · obtain rfl : k' = k := by
      have number := Except.ok.inj same
      omega
    refine ⟨by omega, h.letGo_write slot pos, rfl, rfl, Function.update_self .., fun a ne => ?_⟩
    rw [markBit_disk, Function.update_of_ne ne]

/-- What the loop of `ext2_grow_inode_block` leaves, with enough clear bits: the lowest are marked. -/
theorem Coherent.growSlots_marks (ino : InodeId) (n left : Nat) : ∀ (i : Nat) (s : Fs), Coherent s → s.sb.bsize = 1024#32 →
    s.sb.block_bitmap ≠ 0 → left ≤ (freeBits s.blockBitmap).length → After (growSlots ino n left i) s fun _ t =>
      t.sb = s.sb ∧ (t.itable ino).inum = (s.itable ino).inum ∧
        ∀ k, bit t.blockBitmap k = true ↔ k ∈ (freeBits s.blockBitmap).take left ∨ bit s.blockBitmap k = true := by
  induction left with
  | zero =>
    intro i s _ _ _ _
    exact After.pure ⟨rfl, rfl, fun k => by simp⟩
  | succ left ih =>
    intro i s h bsize pos enough
    obtain ⟨k, rest, free⟩ : ∃ k rest, freeBits s.blockBitmap = k :: rest := List.exists_cons_of_length_pos (by omega)
    have mem : k ∈ freeBits s.blockBitmap := by
      rw [free]
      exact List.mem_cons_self
    have byte : k < 8 * BUFSIZE := List.mem_range.1 (List.mem_filter.1 mem).1
    obtain ⟨-, next⟩ := findFree_freeBits bsize free
    unfold growSlots
    refine After.bind (h.allocBlock_first bsize pos free) ?_
    rintro _ u ⟨rfl, coherent, sb, itable, bitmap, -⟩
    refine After.step FsM.get_run ?_
    split
    case isFalse => exact After.throw _
    case isTrue =>
      refine After.step (FsM.set_run _) ?_
      have behind : freeBits u.blockBitmap = rest := by rw [bitmap, next]
      rw [free, List.length_cons] at enough
      have table : ∀ f, (u.setInode ino f).blockBitmap = u.blockBitmap := fun _ => rfl
      refine After.mono (ih (i + 1) (u.setInode ino _) (coherent.setInode ino _) (sb ▸ bsize) (sb ▸ pos) ?_) ?_
      · rw [table, behind]
        omega
      · rintro _ t ⟨sb', inum, bits⟩
        simp only [table, behind] at bits
        simp only [bitmap, bit_setBit _ byte, Bool.or_eq_true, decide_eq_true_eq] at bits
        refine ⟨sb'.trans sb, by rw [inum, Fs.setInode_self, itable], fun k' => ?_⟩
        simp only [free, List.take_succ_cons, List.mem_cons]
        rw [bits k', or_left_comm, or_assoc]

/-- From an empty slot on, `ext2_grow_inode_block` never says that it failed. -/
theorem growInodeBlock_zero {ino : InodeId} {nblock : BitVec 32} {n : Nat} (first : (s.itable ino).freeSlot = some n) :
    After (ext2GrowInodeBlock ino nblock) s fun r _ => r = 0 := by
  unfold ext2GrowInodeBlock
  refine After.step FsM.get_run ?_
  rw [first]
  refine After.behind fun _ t => ?_
  refine After.step (FsM.modify_run _) ?_
  exact After.behind fun _ u => After.pure rfl

/-- The marks are still there when it returns. -/
theorem Coherent.growInodeBlock_marks (h : Coherent s) (bsize : s.sb.bsize = 1024#32) (pos : s.sb.block_bitmap ≠ 0) {ino : InodeId}
    {n g : Nat} (first : (s.itable ino).freeSlot = some n) (small : g < 2 ^ 31) (enough : g ≤ (freeBits s.blockBitmap).length)
    (apart : s.record ino ≠ s.sb.block_bitmap) : After (ext2GrowInodeBlock ino (BitVec.ofNat 32 g)) s fun _ t =>
      t.sb = s.sb ∧ ∀ k, bit t.blockBitmap k = true ↔ k ∈ (freeBits s.blockBitmap).take g ∨ bit s.blockBitmap k = true := by
  have count : (BitVec.ofNat 32 g).toInt.toNat = g := by
    have whole : (BitVec.ofNat 32 g).toNat = g := by
      rw [BitVec.toNat_ofNat, Nat.mod_eq_of_lt]
      omega
    rw [BitVec.toInt_eq_toNat_of_lt (by omega), whole]
    rfl
  unfold ext2GrowInodeBlock
  refine After.step FsM.get_run ?_
  rw [first]
  simp only [count]
  refine After.bind (h.growSlots_marks ino n g 0 s bsize pos enough) ?_
  rintro _ u ⟨sb, inum, bits⟩
  refine After.step (FsM.modify_run _) ?_
  refine After.bind (writes_inodeSync _ ino) ?_
  rintro _ t ⟨writes, -⟩
  apply After.pure
  have record : (u.setInode ino fun x => { x with blocks := x.blocks + BitVec.ofNat 32 g * (u.sb.bsize / 512#32) }).record ino = s.record ino := by
    unfold Fs.record
    rw [Fs.setInode_self]
    show u.sb.recordBlock (u.itable ino).inum = _
    rw [sb, inum]
  have same : t.disk s.sb.block_bitmap = u.disk s.sb.block_bitmap := by
    apply writes.disk
    rw [record]
    exact apart.symm
  have total : t.sb = s.sb := writes.sb.trans sb
  refine ⟨total, fun k => ?_⟩
  rw [← bits k]
  unfold Fs.blockBitmap
  rw [total, same, sb]

end Marks

section Filled
variable {x : Inode} {n : Nat} {bns : List Nat}

/-- A slot that has been filled. -/
theorem Inode.slot_fill (bns : List Nat) {i : Nat} (lt : i < bns.length) (room : n + i < 15) :
    (x.fill n bns).slot (n + i) = BitVec.ofNat 32 bns[i] := by
  have index : ((Fin.ofNat 15 (n + i) : Fin 15) : Nat) = n + i := Nat.mod_eq_of_lt room
  simp only [Inode.slot, Inode.fill, index]
  rw [if_pos (by omega), Nat.add_sub_cancel_left, List.getElem?_eq_getElem lt]
  rfl

/-- The others. -/
theorem Inode.fill_outside {k : Fin 15} (out : (k : Nat) < n ∨ n + bns.length ≤ k) : (x.fill n bns).block k = x.block k := by
  simp only [Inode.fill]
  split
  case isTrue ge =>
    rw [List.getElem?_eq_none (by omega)]
    rfl
  case isFalse => rfl

end Filled

/-- The direct slots from the first empty one on are as many as asked for, and empty. -/
def Inode.HasRoom (x : Inode) (g : Nat) : Prop := ∃ n, x.freeSlot = some n ∧ ∀ i < g, n + i < 12 ∧ x.slot (n + i) = 0

section Right
variable {s : Fs} {ino : InodeId} {g n : Nat}

theorem mem_freeBits {data : Block} {k : Nat} (mem : k ∈ freeBits data) : k < 8 * BUFSIZE ∧ bit data k = false := by
  obtain ⟨range, clear⟩ := List.mem_filter.1 mem
  exact ⟨List.mem_range.1 range, by simpa using clear⟩

/-- What a call does that has the slots and the blocks it asks for. -/
theorem Coherent.grow_runs (h : Coherent s) (spare : s.Spare) (records : s.sb.Records) (pos : s.sb.block_bitmap ≠ 0)
    (record : s.record ino ≠ 0) (apart : s.record ino ≠ s.sb.block_bitmap) (first : (s.itable ino).freeSlot = some n)
    (room : n + g ≤ 12) (enough : g ≤ (freeBits s.blockBitmap).length) :
    ∃ t, ext2GrowInodeBlock ino (BitVec.ofNat 32 g) s = .ok (0, t) ∧ t.sb = s.sb ∧
      (∀ i < g, ∀ k ∈ (freeBits s.blockBitmap)[i]?, (t.itable ino).slot (n + i) = BitVec.ofNat 32 k) ∧
      (∀ k : Fin 15, (k : Nat) < n ∨ n + g ≤ k → (t.itable ino).block k = (s.itable ino).block k) ∧
      t.itable ino = { s.itable ino with
        block := (t.itable ino).block, blocks := (s.itable ino).blocks + BitVec.ofNat 32 g * (s.sb.bsize / 512#32) } ∧
      ∀ k, bit t.blockBitmap k = true ↔ k ∈ (freeBits s.blockBitmap).take g ∨ bit s.blockBitmap k = true := by
  have fits : s.RecordFits ino := by
    have least := records.least
    exact ⟨by omega, records.fits _⟩
  obtain ⟨t, run, -, -, sb, inode, -⟩ := h.grow_ok spare records.bsize pos first fits record (by omega) enough
  have marks := (h.growInodeBlock_marks records.bsize pos first (by omega) enough apart _ t run).2
  have length : ((freeBits s.blockBitmap).take g).length = g := by
    rw [List.length_take]
    omega
  have slots : (t.itable ino).block = ((s.itable ino).fill n ((freeBits s.blockBitmap).take g)).block := by rw [inode]
  refine ⟨t, run, sb, fun i lt k mem => ?_, fun k out => ?_, ?_, marks⟩
  · unfold Inode.slot
    rw [slots]
    have filled := Inode.slot_fill (x := s.itable ino) (n := n) ((freeBits s.blockBitmap).take g) (i := i) (by omega) (by omega)
    rw [List.getElem_take] at filled
    refine filled.trans ?_
    obtain ⟨_, rfl⟩ := List.getElem?_eq_some_iff.1 mem
    rfl
  · rw [slots]
    apply Inode.fill_outside
    rwa [length]
  · rw [slots, inode, records.bsize]
    rfl

/-- A block number and its bit, where blocks start at 0. -/
theorem Fs.inUse_ofNat {t : Fs} (zero : t.sb.first_data_block = 0) {k : Nat} (lt : k < 8 * BUFSIZE) :
    t.InUse (BitVec.ofNat 32 k) ↔ bit t.blockBitmap k = true := by
  have small : k < 2 ^ 32 := lt.trans (by decide)
  unfold Fs.InUse
  rw [zero, BitVec.toNat_ofNat, Nat.mod_eq_of_lt small]
  constructor
  · rintro ⟨k', same, set⟩
    obtain rfl : k = k' := by simpa using same
    exact set
  · exact fun set => ⟨k, by simp, set⟩

/-- With room, free blocks and blocks that start at 0, the promise is kept. -/
theorem Coherent.grewRight (h : Coherent s) (spare : s.Spare) (records : s.sb.Records) (pos : s.sb.block_bitmap ≠ 0)
    (record : s.record ino ≠ 0) (apart : s.record ino ≠ s.sb.block_bitmap) (first : (s.itable ino).freeSlot = some n)
    (room : ∀ i < g, n + i < 12 ∧ (s.itable ino).slot (n + i) = 0) (enough : g ≤ (freeBits s.blockBitmap).length)
    (zero : s.sb.first_data_block = 0 ∨ g = 0) {t : Fs} (run : ext2GrowInodeBlock ino (BitVec.ofNat 32 g) s = .ok (0, t)) :
    GrewRight s t ino g n := by
  have below : n < 12 := (Inode.freeSlot_some first).1
  have last : n + g ≤ 12 := by
    cases g with
    | zero => omega
    | succ g =>
      have inside := (room g (by omega)).1
      omega
  obtain ⟨t', run', sb, slots, others, fields, bits⟩ := h.grow_runs spare records pos record apart first last enough
  rw [run] at run'
  cases run'
  have number : ∀ i < g, ∃ k, (freeBits s.blockBitmap)[i]? = some k ∧ (t.itable ino).slot (n + i) = BitVec.ofNat 32 k := by
    intro i lt
    have inside : i < (freeBits s.blockBitmap).length := by omega
    exact ⟨_, List.getElem?_eq_getElem inside, slots i lt _ (List.getElem?_eq_getElem inside)⟩
  refine ⟨first, last, fun i lt => (room i lt).2, fun i lt => ?_, fun i lti j ltj same => ?_, others, fields⟩
  · obtain ⟨k, found, slot⟩ := number i lt
    have start : s.sb.first_data_block = 0 := zero.resolve_right (by omega)
    obtain ⟨small, clear⟩ := mem_freeBits (List.mem_of_getElem? found)
    rw [slot, Fs.inUse_ofNat start small, Fs.inUse_ofNat (sb ▸ start) small, bits, clear]
    refine ⟨Bool.false_ne_true, .inl ?_⟩
    obtain ⟨inside, rfl⟩ := List.getElem?_eq_some_iff.1 found
    exact List.mem_take_iff_getElem.2 ⟨i, by omega, rfl⟩
  · obtain ⟨k, found, slot⟩ := number i lti
    obtain ⟨k', found', slot'⟩ := number j ltj
    rw [slot, slot'] at same
    have small : k < 2 ^ 32 := (mem_freeBits (List.mem_of_getElem? found)).1.trans (by decide)
    have small' : k' < 2 ^ 32 := (mem_freeBits (List.mem_of_getElem? found')).1.trans (by decide)
    have equal := congrArg BitVec.toNat same
    rw [BitVec.toNat_ofNat, BitVec.toNat_ofNat, Nat.mod_eq_of_lt small, Nat.mod_eq_of_lt small'] at equal
    subst equal
    obtain ⟨inside, here⟩ := List.getElem?_eq_some_iff.1 found
    obtain ⟨inside', there⟩ := List.getElem?_eq_some_iff.1 found'
    exact (freeBits_nodup s.blockBitmap).getElem_inj_iff.1 (here.trans there.symm)

end Right

/-- **Growing an inode.** On a mounted volume `ext2_grow_inode_block` is right exactly when no direct
slot is empty, or no block is asked for, or the direct slots from the first empty one on are empty,
as many as asked for, there are as many free blocks, and the blocks of the volume start at 0. -/
theorem grow_right_iff {s : Fs} {ino : InodeId} {nblock : BitVec 32} (h : Coherent s) (spare : s.Spare) (records : s.sb.Records)
    (pos : s.sb.block_bitmap ≠ 0) (record : s.record ino ≠ 0) (apart : s.record ino ≠ s.sb.block_bitmap) :
    GrowRight s ino nblock ↔ (s.itable ino).freeSlot = none ∨ nblock = 0 ∨
      (s.itable ino).HasRoom nblock.toNat ∧ nblock.toNat ≤ (freeBits s.blockBitmap).length ∧ s.sb.first_data_block = 0 := by
  have whole : BitVec.ofNat 32 nblock.toNat = nblock := by rw [BitVec.ofNat_toNat, BitVec.setWidth_eq]
  constructor
  · rintro ⟨promise, fails⟩
    cases first : (s.itable ino).freeSlot with
    | none => exact .inl rfl
    | some n =>
    refine .inr (or_iff_not_imp_left.2 fun some => ?_)
    -- it returns 0, so there must be enough of both
    have available : ¬ ((s.itable ino).emptySlots < nblock.toNat ∨ (freeBits s.blockBitmap).length < nblock.toNat) := by
      intro short
      obtain ⟨t, run, -⟩ := fails short
      have zero := growInodeBlock_zero first _ t run
      cases zero
    push Not at available
    obtain ⟨slots, enough⟩ := available
    have most := Inode.emptySlots_le first
    have below := (Inode.freeSlot_some first).1
    obtain ⟨t, run, sb, slot, -, -, bits⟩ := h.grow_runs spare records pos record apart first (show n + nblock.toNat ≤ 12 by omega) enough
    rw [whole] at run
    obtain ⟨n', grew⟩ := promise t run
    obtain rfl : n = n' := Option.some.inj (first.symm.trans grew.first)
    have positive : 0 < nblock.toNat := by
      rw [Nat.pos_iff_ne_zero]
      exact fun zero => some (BitVec.eq_of_toNat_eq zero)
    have room : (s.itable ino).HasRoom nblock.toNat := by
      refine ⟨n, first, fun i lt => ⟨?_, grew.empty i lt⟩⟩
      have last := grew.direct
      omega
    refine ⟨room, enough, ?_⟩
    -- the lowest clear bit is the first to be handed out
    obtain ⟨k, rest, free⟩ : ∃ k rest, freeBits s.blockBitmap = k :: rest := List.exists_cons_of_length_pos (by omega)
    have first_slot := slot 0 positive k (by rw [free]; rfl)
    obtain ⟨unused, k', same, set⟩ := grew.marked 0 positive
    rw [first_slot] at unused same
    have mem : k ∈ freeBits s.blockBitmap := by rw [free]; exact List.mem_cons_self
    obtain ⟨small, -⟩ := mem_freeBits mem
    rw [BitVec.toNat_ofNat, Nat.mod_eq_of_lt (small.trans (by decide)), sb] at same
    rcases (bits k').1 set with fresh | old
    · have least : k ≤ k' := by
        have sorted : (freeBits s.blockBitmap).Pairwise (· < ·) := List.pairwise_lt_range.filter _
        rw [free] at sorted fresh
        rcases List.mem_cons.1 (List.mem_of_mem_take fresh) with rfl | behind
        · exact le_rfl
        · exact (List.rel_of_pairwise_cons sorted behind).le
      apply BitVec.eq_of_toNat_eq
      show s.sb.first_data_block.toNat = 0
      omega
    · exact absurd ⟨k', by rw [BitVec.toNat_ofNat, Nat.mod_eq_of_lt (small.trans (by decide)), same], old⟩ unused
  · rintro (none | zero | ⟨⟨n, first, room⟩, enough, start⟩)
    · have run : ext2GrowInodeBlock ino nblock s = .ok (-1, s) := by
        rw [ext2GrowInodeBlock, FsM.bind_of_ok FsM.get_run, none]
        rfl
      refine ⟨fun t run' => ?_, fun _ => ⟨s, run, rfl, rfl⟩⟩
      rw [run] at run'
      cases run'
    · subst zero
      refine ⟨fun t run => ?_, fun short => ?_⟩
      · cases first : (s.itable ino).freeSlot with
        | none =>
          rw [ext2GrowInodeBlock, FsM.bind_of_ok FsM.get_run, first] at run
          cases run
        | some n =>
          exact ⟨n, h.grewRight (g := 0) spare records pos record apart first (fun i lt => absurd lt i.not_lt_zero) (Nat.zero_le _)
            (.inr rfl) run⟩
      · rcases short with short | short
        · exact absurd short (Nat.not_lt_zero _)
        · exact absurd short (Nat.not_lt_zero _)
    · refine ⟨fun t run => ⟨n, h.grewRight spare records pos record apart first room enough (.inl start) (by rwa [whole])⟩, fun short => ?_⟩
      have slots := Inode.le_emptySlots room
      omega

/-- A root directory with eleven blocks. -/
def elevenFs : Fs := treeFs.setInode 0 fun x => { x with block := fun k => if (k : Nat) < 11 then BitVec.ofNat 32 (20 + k) else 0 }

/-- A volume whose blocks start at 0. -/
def zeroFs : Fs := { treeFs with sb := { treeFs.sb with first_data_block := 0 } }

theorem grow_right_iff_zero : GrowRight zeroFs 0 1#32 := by
  have wf := treeFs_wellFormed
  refine (@grow_right_iff zeroFs 0 1#32 ⟨wf.coherent.clear, wf.coherent.valid, wf.coherent.data, wf.coherent.once⟩
    wf.spare ⟨wf.records.bsize, wf.records.least, wf.records.most⟩ (by decide +kernel) (by decide +kernel) (by decide +kernel)).2
    (.inr (.inr ⟨⟨1, by decide +kernel, by decide +kernel⟩, ?_, rfl⟩))
  have clear : 4 ∈ freeBits zeroFs.blockBitmap := List.mem_filter.2 ⟨List.mem_range.2 (by decide), by decide +kernel⟩
  exact List.length_pos_of_mem clear

/-- With one empty direct slot, a request for two blocks is not refused. -/
theorem grow_past_direct : ¬ GrowRight elevenFs 0 2#32 := by
  rintro ⟨-, fails⟩
  obtain ⟨t, run, -⟩ := fails (.inl (by decide +kernel))
  have first : (elevenFs.itable 0).freeSlot = some 11 := by decide +kernel
  have zero := growInodeBlock_zero first _ t run
  cases zero

end Aarch64Os.Kernel
