import Mathlib
import Aarch64Os.Kernel.Ext2.Record
import Aarch64Os.Kernel.Ext2.SearchDir

/-!
# Linking an entry into a block (`kernel/ext2.c`)

`ext2_dirlink` cuts the last record of a block to what `strlen` takes for its name, and puts the
new record behind it. When the block is a chain of records afterwards.
-/

namespace Aarch64Os.Kernel
set_option autoImplicit false
open Base

/-- Records from `p` on, up to the one that begins at `l`. -/
inductive Block.Upto (blk : Block) (l : Nat) : Nat → List Dirent → Prop
  | nil : Upto blk l l []
  | cons {p : Nat} {ds : List Dirent} : direntRecLen blk p % 4 = 0 → 8 + direntNameLen blk p ≤ direntRecLen blk p →
    Upto blk l (p + direntRecLen blk p) ds → Upto blk l p (⟨le32 blk p, direntName blk p⟩ :: ds)

/-- The record at `l` is the last one. -/
structure Block.Final (blk : Block) (l : Nat) : Prop where
  long : 8 + direntNameLen blk l ≤ direntRecLen blk l
  ends : l + direntRecLen blk l = BUFSIZE

/-- Two blocks agree below `l`. -/
def Block.Agree (blk blk' : Block) (l : Nat) : Prop := ∀ i < l, byte blk' i = byte blk i

section Chain
variable {blk blk' : Block} {l p : Nat} {ds ds' : List Dirent}

/-- The fields of a record are those of a block that agrees with it. -/
theorem Block.Agree.record (agree : blk.Agree blk' l) (header : p + 8 ≤ l) : direntRecLen blk' p = direntRecLen blk p ∧
    direntNameLen blk' p = direntNameLen blk p ∧ le32 blk' p = le32 blk p := by
  refine ⟨?_, ?_, ?_⟩
  · exact congrArg BitVec.toNat (le16_congr fun k lt => agree _ (by omega))
  · exact congrArg BitVec.toNat (agree _ (by omega))
  · exact le32_congr fun k lt => agree _ (by omega)

theorem Block.Agree.name (agree : blk.Agree blk' l) (fits : p + 8 + direntNameLen blk p ≤ l) :
    direntName blk' p = direntName blk p := by
  unfold direntName bytesAt
  rw [(agree.record (p := p) (by omega)).2.1]
  refine List.map_congr_left fun k mem => ?_
  have lt := List.mem_range.1 mem
  exact agree _ (by omega)

theorem Block.Upto.le (upto : blk.Upto l p ds) : p ≤ l := by
  induction upto with
  | nil => exact le_rfl
  | cons _ _ _ ih => omega

/-- A chain has a last record. -/
theorem Block.Chain.split (chain : blk.Chain p ds) (more : p < BUFSIZE) :
    ∃ l before, blk.Upto l p before ∧ blk.Final l ∧ ds = before ++ [⟨le32 blk l, direntName blk l⟩] := by
  induction chain with
  | nil => exact absurd more (lt_irrefl _)
  | @cons p ds aligned long rest ih =>
    rcases rest.le.lt_or_eq with inside | last
    · obtain ⟨l, before, upto, final, rfl⟩ := ih inside
      exact ⟨l, _, .cons aligned long upto, final, rfl⟩
    · have none : ds = [] := by
        rw [last] at rest
        cases rest with
        | nil => rfl
        | cons _ long tail =>
          have past := tail.le
          omega
      exact ⟨p, [], .nil, ⟨long, last⟩, by rw [none]; rfl⟩

theorem Block.Chain.aligned (chain : blk.Chain p ds) : p % 4 = 0 := by
  induction chain with
  | nil => rfl
  | cons _ _ _ ih => omega

theorem Block.Upto.aligned (upto : blk.Upto l p ds) (start : p % 4 = 0) : l % 4 = 0 := by
  induction upto with
  | nil => exact start
  | cons _ _ _ ih => exact ih (by omega)

/-- The free-space walk stops at it. -/
theorem Block.Upto.last (upto : blk.Upto l p ds) (final : blk.Final l) : ∀ d, blk.Last p d false l := by
  have long := final.long
  have ends := final.ends
  induction upto with
  | nil => exact fun d => .next (by omega) (by omega) (.ending (by omega))
  | cons _ long' rest ih =>
    have inside := rest.le
    exact fun d => .next (by omega) (by omega) (ih _)

/-- What comes before `l` stays a chain in front of another end. -/
theorem Block.Upto.chain (upto : blk.Upto l p ds) (agree : blk.Agree blk' l) (rest : blk'.Chain l ds') :
    blk'.Chain p (ds ++ ds') := by
  induction upto with
  | nil => exact rest
  | @cons p ds aligned long tail ih =>
    have inside := tail.le
    obtain ⟨rec_len, name_len, inode⟩ := agree.record (p := p) (by omega)
    have name := agree.name (p := p) (by omega)
    rw [List.cons_append, ← name, ← inode]
    refine .cons (by rw [rec_len]; exact aligned) (by rw [rec_len, name_len]; exact long) ?_
    rw [rec_len]
    exact ih

/-- A chain of a block that agrees with it passes through `l`. -/
theorem Block.Upto.through (upto : blk.Upto l p ds) (agree : blk.Agree blk' l) (inside : l < BUFSIZE) :
    blk'.Chain p ds' → ∃ ds, blk'.Chain l ds := by
  induction upto generalizing ds' with
  | nil => exact fun chain => ⟨_, chain⟩
  | @cons p ds _ long tail ih =>
    intro chain
    have le := tail.le
    cases chain with
    | nil => omega
    | cons _ _ rest =>
      rw [(agree.record (p := p) (by omega)).1] at rest
      exact ih rest

end Chain

section Put
variable {blk : Block} {off i : Nat} {de : NewDirent} {rec_len : BitVec 16}

/-- The block with a record put at `off`. -/
def Block.put (blk : Block) (off : Nat) (de : NewDirent) (rec_len : BitVec 16) : Block :=
  let blk := putLe blk off de.inode
  let blk := putLe blk (off + 4) rec_len
  let blk := putLe blk (off + 6) de.name_len
  let blk := putLe blk (off + 7) de.file_type
  splice blk (off + 8) (fun k => de.name.getD k 0) (de.name_len.toNat + 1)

theorem putDirent_eq (blk : Block) (off : Nat) (de : NewDirent) (rec_len : BitVec 16) : putDirent blk off de rec_len =
    if off + 8 + de.name_len.toNat + 1 ≤ BUFSIZE then .ok (blk.put off de rec_len) else .error .undefined := rfl

theorem Block.byte_put_outside (out : i < off ∨ off + 8 + de.name_len.toNat + 1 ≤ i) :
    byte (blk.put off de rec_len) i = byte blk i := by
  unfold Block.put
  simp (disch := omega) only [byte_splice_outside, byte_putLe_outside]

/-- The bytes of the record. -/
theorem Block.byte_put (blk : Block) (rec_len : BitVec 16) (fits : off + 8 + de.name_len.toNat + 1 ≤ BUFSIZE) :
    (∀ k < 4, byte (blk.put off de rec_len) (off + k) = leByte de.inode k) ∧
    (∀ k < 2, byte (blk.put off de rec_len) (off + 4 + k) = leByte rec_len k) ∧
    byte (blk.put off de rec_len) (off + 6) = de.name_len ∧
    ∀ k < de.name_len.toNat + 1, byte (blk.put off de rec_len) (off + 8 + k) = de.name.getD k 0 := by
  unfold Block.put
  refine ⟨fun k lt => ?_, fun k lt => ?_, ?_, fun k lt => ?_⟩
  · simp (disch := omega) only [byte_splice_outside, byte_putLe_outside, byte_putLe_inside]
    congr 1
    omega
  · simp (disch := omega) only [byte_splice_outside, byte_putLe_outside, byte_putLe_inside]
    congr 1
    omega
  · simp (disch := omega) only [byte_splice_outside, byte_putLe_outside, byte_putLe_inside]
    simp [leByte]
  · rw [byte_splice_inside _ _ (by omega) (by omega) (by omega), Nat.add_sub_cancel_left]

/-- The record. -/
theorem Block.record_put (blk : Block) (rec_len : BitVec 16) (fits : off + 8 + de.name_len.toNat + 1 ≤ BUFSIZE) :
    le32 (blk.put off de rec_len) off = de.inode ∧ direntRecLen (blk.put off de rec_len) off = rec_len.toNat ∧
    direntNameLen (blk.put off de rec_len) off = de.name_len.toNat ∧
    direntName (blk.put off de rec_len) off = (List.range de.name_len.toNat).map fun k => de.name.getD k 0 := by
  obtain ⟨inode, length, name_len, name⟩ := Block.byte_put blk rec_len fits
  have count : direntNameLen (blk.put off de rec_len) off = de.name_len.toNat := congrArg BitVec.toNat name_len
  refine ⟨le32_leByte inode, congrArg BitVec.toNat (le16_leByte length), count, ?_⟩
  unfold direntName bytesAt
  rw [count]
  refine List.map_congr_left fun k mem => ?_
  exact name k (by have lt := List.mem_range.1 mem; omega)

end Put

/-- The name behind the last record ends at `l + 8 + n`: there is room for `de`, as `ext2_dirlink`
sees it. -/
def NewDirent.Room (de : NewDirent) (l n : Nat) : Prop := de.rec_len.toNat < BUFSIZE - (l + 8 + n)

/-- The new record fits with the NUL of its name, and the record before it still holds its own. -/
structure Block.Fits (blk : Block) (de : NewDirent) (l n : Nat) : Prop where
  inside : roundup4 (l + 8 + n) + 8 + de.name_len.toNat + 1 ≤ BUFSIZE
  holds : l + 8 + direntNameLen blk l ≤ roundup4 (l + 8 + n)

section Link
variable {blk : Block} {l n : Nat} {de : NewDirent} {before : List Dirent}

/-- The block with its last record cut and a new one behind it. -/
def Block.link (blk : Block) (l n : Nat) (de : NewDirent) : Block :=
  let debegin := roundup4 (l + 8 + n)
  Block.put (putLe blk (l + 4) (BitVec.ofNat 16 (debegin - l))) debegin de (BitVec.ofNat 16 (BUFSIZE - debegin))

theorem linkBehind_eq (blk : Block) (l n : Nat) (de : NewDirent) : linkBehind BUFSIZE blk l n de =
    if roundup4 (l + 8 + n) + 8 + de.name_len.toNat + 1 ≤ BUFSIZE then .ok (blk.link l n de) else .error .undefined := rfl

theorem roundup4_spec (k : Nat) : k ≤ roundup4 k ∧ roundup4 k < k + 4 ∧ roundup4 k % 4 = 0 := by
  unfold roundup4
  omega

/-- Below the new record only the length of the one before it has changed. -/
theorem Block.byte_link_before {i : Nat} (lt : i < roundup4 (l + 8 + n)) (out : i < l + 4 ∨ l + 6 ≤ i) :
    byte (blk.link l n de) i = byte blk i := by
  unfold Block.link
  rw [Block.byte_put_outside (.inl lt), byte_putLe_outside out]

/-- The record that was the last. -/
theorem Block.link_cut (blk : Block) (de : NewDirent) (inside : roundup4 (l + 8 + n) ≤ BUFSIZE) :
    direntRecLen (blk.link l n de) l = roundup4 (l + 8 + n) - l ∧ direntNameLen (blk.link l n de) l = direntNameLen blk l ∧
    le32 (blk.link l n de) l = le32 blk l ∧
    (l + 8 + direntNameLen blk l ≤ roundup4 (l + 8 + n) → direntName (blk.link l n de) l = direntName blk l) := by
  obtain ⟨least, -, -⟩ := roundup4_spec (l + 8 + n)
  have size : BUFSIZE = 1024 := rfl
  have count : direntNameLen (blk.link l n de) l = direntNameLen blk l :=
    congrArg BitVec.toNat (Block.byte_link_before (by omega) (by omega))
  refine ⟨?_, count, ?_, fun holds => ?_⟩
  · have length : le16 (blk.link l n de) (l + 4) = BitVec.ofNat 16 (roundup4 (l + 8 + n) - l) := by
      apply le16_leByte
      intro k lt
      unfold Block.link
      rw [Block.byte_put_outside (by omega), byte_putLe_inside (by omega) (by omega) (by omega), Nat.add_sub_cancel_left]
    rw [direntRecLen, length, BitVec.toNat_ofNat, Nat.mod_eq_of_lt (by omega)]
  · exact le32_congr fun k lt => Block.byte_link_before (by omega) (by omega)
  · unfold direntName bytesAt
    rw [count]
    refine List.map_congr_left fun k mem => ?_
    have lt := List.mem_range.1 mem
    exact Block.byte_link_before (by omega) (by omega)

/-- The new record. -/
theorem Block.link_new (blk : Block) (fits : roundup4 (l + 8 + n) + 8 + de.name_len.toNat + 1 ≤ BUFSIZE) :
    le32 (blk.link l n de) (roundup4 (l + 8 + n)) = de.inode ∧
    direntRecLen (blk.link l n de) (roundup4 (l + 8 + n)) = BUFSIZE - roundup4 (l + 8 + n) ∧
    direntNameLen (blk.link l n de) (roundup4 (l + 8 + n)) = de.name_len.toNat ∧
    direntName (blk.link l n de) (roundup4 (l + 8 + n)) = (List.range de.name_len.toNat).map fun k => de.name.getD k 0 := by
  obtain ⟨inode, length, count, name⟩ := Block.record_put (putLe blk (l + 4) (BitVec.ofNat 16 (roundup4 (l + 8 + n) - l)))
    (BitVec.ofNat 16 (BUFSIZE - roundup4 (l + 8 + n))) fits
  have size : BUFSIZE = 1024 := rfl
  refine ⟨inode, ?_, count, name⟩
  rw [Block.link, length, BitVec.toNat_ofNat, Nat.mod_eq_of_lt (by omega)]

/-- A chain whose last record is cut, with a new record that fits, is a chain again. -/
theorem Block.Upto.link (upto : blk.Upto l 0 before) (fits : blk.Fits de l n) :
    (blk.link l n de).Chain 0 (before ++ [⟨le32 blk l, direntName blk l⟩,
      ⟨de.inode, (List.range de.name_len.toNat).map fun k => de.name.getD k 0⟩]) := by
  obtain ⟨least, -, aligned⟩ := roundup4_spec (l + 8 + n)
  have start := upto.aligned rfl
  have inside := fits.inside
  have holds := fits.holds
  have size : BUFSIZE = 1024 := rfl
  obtain ⟨cut, count, inode, name⟩ := Block.link_cut blk de (l := l) (n := n) (by omega)
  obtain ⟨inode', length', count', name'⟩ := Block.link_new blk inside
  refine upto.chain (fun i lt => Block.byte_link_before (by omega) (by omega)) ?_
  rw [← inode, ← name holds]
  refine .cons (by rw [cut]; omega) (by rw [cut, count]; omega) ?_
  rw [cut, Nat.add_sub_of_le (by omega), ← inode', ← name']
  refine .cons (by rw [length']; omega) (by rw [length', count']; omega) ?_
  rw [length', Nat.add_sub_of_le (by omega)]
  exact .nil

/-- One that no longer holds its name makes the block no chain. -/
theorem Block.Upto.link_fails (upto : blk.Upto l 0 before) (inside : roundup4 (l + 8 + n) + 8 + de.name_len.toNat + 1 ≤ BUFSIZE)
    (short : roundup4 (l + 8 + n) < l + 8 + direntNameLen blk l) (ds : List Dirent) : ¬ (blk.link l n de).Chain 0 ds := by
  intro chain
  obtain ⟨least, -, -⟩ := roundup4_spec (l + 8 + n)
  obtain ⟨cut, count, -⟩ := Block.link_cut blk de (l := l) (n := n) (by omega)
  obtain ⟨ds', rest⟩ := upto.through (fun i lt => Block.byte_link_before (by omega) (by omega)) (by omega) chain
  generalize whole : blk.link l n de = blk' at *
  cases rest with
  | nil => omega
  | cons _ long _ =>
    rw [cut, count] at long
    omega

end Link

end Aarch64Os.Kernel
