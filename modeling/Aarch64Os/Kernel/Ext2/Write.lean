import Mathlib
import Aarch64Os.Kernel.Ext2.FileView

/-!
# The writing loop (`kernel/ext2.c`)

Each round of the loop of `ext2_w_inode` changes part of one logical block. As long as
the blocks it changes are the inode's own, the rounds put a run of bytes into the file
and leave everything else on the disk alone.
-/

namespace Aarch64Os.Kernel
set_option autoImplicit false
set_option maxRecDepth 4000
open Base

/-- Logical block `j` is the inode's own: it is mapped to a block other than 0 and the
indirect block, and no other logical block below `n` is mapped there. -/
def Fs.Own (s : Fs) (ino : InodeId) (n j : Nat) : Prop :=
  ∀ a, s.bmap ino j = some a → a ≠ 0 ∧ a ≠ (s.itable ino).block 12 ∧ ∀ j', j' < n → j' ≠ j → s.bmap ino j' ≠ some a

/-- The disk agrees on the indirect block: the block map is the same. -/
theorem Fs.bmap_congr {s t : Fs} {ino : InodeId} (itable : t.itable ino = s.itable ino)
    (map : t.disk ((s.itable ino).block 12) = s.disk ((s.itable ino).block 12)) : t.bmap ino = s.bmap ino := by
  funext i
  simp only [Fs.bmap, itable, map]

/-- `t` is `s` with bytes `lo` to `hi` of the file changed to `val`. -/
structure Wrote (s t : Fs) (ino : InodeId) (lo hi : Nat) (val : Nat → BitVec 8) : Prop where
  coherent : Coherent t
  spare : t.Spare
  sb : t.sb = s.sb
  itable : t.itable = s.itable
  bmap : t.bmap ino = s.bmap ino
  inside : ∀ j a (x : Fin BUFSIZE), s.bmap ino j = some a → j * 1024 < hi → lo < (j + 1) * 1024 →
    t.disk a x = if lo ≤ j * 1024 + x ∧ j * 1024 + x < hi then val (j * 1024 + x) else s.disk a x
  outside : ∀ a, (∀ j, j * 1024 < hi → lo < (j + 1) * 1024 → s.bmap ino j ≠ some a) → t.disk a = s.disk a

namespace Wrote
variable {s t u : Fs} {ino : InodeId} {lo hi : Nat} {val : Nat → BitVec 8}

/-- Nothing written. -/
theorem refl (h : Coherent s) (spare : s.Spare) (ino : InodeId) {lo hi : Nat} (le : hi ≤ lo) (val : Nat → BitVec 8) :
    Wrote s s ino lo hi val where
  coherent := h
  spare := spare
  sb := rfl
  itable := rfl
  bmap := rfl
  inside j a x _ _ _ := by rw [if_neg]; omega
  outside _ _ := rfl

/-- One block changed, through the buffer that was read for it. -/
theorem put (h : Coherent s) (spare : s.Spare) {i off len n : Nat} {a : BitVec 32} {b : BufId} (slot : s.Slot b a)
    (mapped : s.bmap ino i = some a) (own : s.Own ino n i) (pos : 0 < len) (fits : off + len ≤ 1024) :
    Wrote s (s.put b a (splice (s.disk a) off (fun x => val (i * 1024 + off + x)) len)) ino (i * 1024 + off)
      (i * 1024 + off + len) val := by
  obtain ⟨pos', other, -⟩ := own a mapped
  refine ⟨h.letGo_write slot pos', spare.put .., rfl, rfl, ?_, fun j c x mapped' lt ge => ?_, fun c none => ?_⟩
  · refine Fs.bmap_congr rfl ?_
    rw [Fs.put_disk, Function.update_of_ne other.symm]
  · -- the run lies inside block `i`
    obtain rfl : j = i := by omega
    obtain rfl : a = c := Option.some.inj (mapped.symm.trans mapped')
    rw [Fs.put_disk, Function.update_self]
    by_cases inside : off ≤ (x : Nat) ∧ (x : Nat) < off + len
    · rw [splice_inside _ _ inside.1 inside.2, if_pos (by omega), show j * 1024 + off + ((x : Nat) - off) = j * 1024 + x by omega]
    · rw [splice_outside _ _ (by omega), if_neg (by omega)]
  · have ne : c ≠ a := fun e => none i (by omega) (by omega) (e ▸ mapped)
    rw [Fs.put_disk, Function.update_of_ne ne]

/-- Two runs that meet at a block boundary, in blocks of the inode's own. -/
theorem trans {m n : Nat} (first : Wrote s t ino lo (m * 1024) val) (second : Wrote t u ino (m * 1024) hi val)
    (own : ∀ j, j * 1024 < hi → lo < (j + 1) * 1024 → s.Own ino n j) (le : m * 1024 ≤ hi) (cover : hi ≤ n * 1024)
    (start : lo ≤ m * 1024) : Wrote s u ino lo hi val where
  coherent := second.coherent
  spare := second.spare
  sb := second.sb.trans first.sb
  itable := second.itable.trans first.itable
  bmap := second.bmap.trans first.bmap
  inside j a x mapped lt gt := by
    obtain ⟨-, -, alone⟩ := own j lt gt a mapped
    have bound := x.2
    simp only [BUFSIZE] at bound
    by_cases before : j < m
    · have kept : u.disk a = t.disk a := second.outside a fun j' lt' gt' => by
        rw [first.bmap]
        exact alone j' (by omega) (by omega)
      rw [kept, first.inside j a x mapped (by omega) gt]
      by_cases range : lo ≤ j * 1024 + x
      · rw [if_pos ⟨range, by omega⟩, if_pos ⟨range, by omega⟩]
      · rw [if_neg fun both => range both.1, if_neg fun both => range both.1]
    · have kept : t.disk a = s.disk a := first.outside a fun j' lt' gt' => alone j' (by omega) (by omega)
      rw [second.inside j a x (by rw [first.bmap]; exact mapped) lt (by omega), kept]
      by_cases range : j * 1024 + (x : Nat) < hi
      · rw [if_pos ⟨by omega, range⟩, if_pos ⟨by omega, range⟩]
      · rw [if_neg fun both => range both.2, if_neg fun both => range both.2]
  outside a none := by
    rw [second.outside a fun j lt gt => by rw [first.bmap]; exact none j lt (by omega)]
    exact first.outside a fun j lt gt => none j (by omega) gt

/-- A run that is followed by an empty one. -/
theorem then_nothing {lo' hi' : Nat} {val' : Nat → BitVec 8} (first : Wrote s t ino lo hi val)
    (second : Wrote t u ino lo' hi' val') (le : hi' ≤ lo') : Wrote s u ino lo hi val := by
  have disk : u.disk = t.disk := by
    funext a
    by_cases touched : ∃ j, j * 1024 < hi' ∧ lo' < (j + 1) * 1024 ∧ t.bmap ino j = some a
    · obtain ⟨j, lt, gt, mapped⟩ := touched
      funext x
      rw [second.inside j a x mapped lt gt, if_neg]
      omega
    · exact second.outside a fun j lt gt mapped => touched ⟨j, lt, gt, mapped⟩
  exact ⟨second.coherent, second.spare, second.sb.trans first.sb, second.itable.trans first.itable,
    second.bmap.trans first.bmap, fun j a x mapped lt gt => by rw [disk]; exact first.inside j a x mapped lt gt,
    fun a none => by rw [disk]; exact first.outside a none⟩

end Wrote

section Loop
variable {s : Fs} {ino : InodeId}

theorem copyIn_hold {b : BufId} {a : BitVec 32} {data : Block} {off len : Nat} (src : Nat → BitVec 8)
    (inside : off + len ≤ BUFSIZE) :
    copyIn b off src len (s.hold b a data) = .ok ((), s.hold b a (splice data off src len)) := by
  rw [copyIn, FsM.bind_of_ok (Coherent.bufData_hold ..), if_pos inside]
  exact Coherent.setBufData_hold ..

/-- One round of the loop, on a block of the inode's own unless it copies nothing. -/
theorem Coherent.round_ok (h : Coherent s) (spare : s.Spare) {i off len n : Nat} {a : BitVec 32}
    (mapped : s.bmap ino i = some a) (own : 0 < len → s.Own ino n i) (fits : off + len ≤ 1024)
    (src val : Nat → BitVec 8) (same : ∀ x < len, src x = val (i * 1024 + off + x)) :
    ∃ t, Wrote s t ino (i * 1024 + off) (i * 1024 + off + len) val ∧ ∀ rest : FsM Unit,
      (do let b ← ext2InodeBlock ino i
          copyIn b off src len
          bioWrite b
          bioFree b
          rest) s = rest t := by
  obtain ⟨b, slot, read⟩ := h.inodeBlock_ok spare mapped
  have round : ∀ rest : FsM Unit,
      (do let b ← ext2InodeBlock ino i
          copyIn b off src len
          bioWrite b
          bioFree b
          rest) s = rest (s.put b a (splice (s.disk a) off (fun x => val (i * 1024 + off + x)) len)) := fun rest => by
    rw [FsM.bind_of_ok read, FsM.bind_of_ok (copyIn_hold _ fits), splice_congr _ same]
    exact h.write_free slot _ fun _ => rest
  by_cases pos : 0 < len
  · exact ⟨_, .put h spare slot mapped (own pos) pos fits, round⟩
  · obtain rfl : len = 0 := by omega
    have same : splice (s.disk a) off (fun x => val (i * 1024 + off + x)) 0 = s.disk a := by
      funext x
      exact splice_outside _ _ (by omega)
    have self : s.put b a (s.disk a) = s := by
      rw [Fs.put, Fs.write, Function.update_eq_self]
      exact h.letGo_self slot
    rw [same, self] at round
    exact ⟨s, .refl h spare ino le_rfl val, round⟩

/-- The same blocks are the inode's own while its block map stays. -/
theorem Wrote.own {t : Fs} {lo hi : Nat} {val : Nat → BitVec 8} (w : Wrote s t ino lo hi val) {n j : Nat}
    (own : s.Own ino n j) : t.Own ino n j := by
  unfold Fs.Own
  rw [w.bmap, w.itable]
  exact own

/-- The loop from a block boundary on: it writes up to the end of its blocks or of its data,
or it comes to a block out of reach. -/
theorem Coherent.writeAligned (ino : InodeId) (lastblk n : Nat) (buf val : Nat → BitVec 8) (left : Nat) :
    ∀ i size pos (s : Fs), Coherent s → s.Spare → (∀ x < size, buf (pos + x) = val (i * 1024 + x)) →
      (∀ j, i ≤ j → j < min (i + left) (lastblk + 1) → j * 1024 < i * 1024 + size → s.Own ino n j) →
      min (i + left) (lastblk + 1) ≤ n →
      (∃ t, writeBlocks ino buf 1024 lastblk left i size 0 pos s = .ok ((), t) ∧
        Wrote s t ino (i * 1024) (min (i * 1024 + size) (min (i + left) (lastblk + 1) * 1024)) val ∧
        ∀ j, i ≤ j → j < min (i + left) (lastblk + 1) → s.bmap ino j ≠ none) ∨
      (writeBlocks ino buf 1024 lastblk left i size 0 pos s = .error .undefined ∧
        ∃ j, i ≤ j ∧ j < min (i + left) (lastblk + 1) ∧ s.bmap ino j = none) := by
  induction left with
  | zero =>
    intro i size pos s h spare _ _ _
    exact .inl ⟨s, rfl, .refl h spare ino (by omega) val, fun j ge lt => by omega⟩
  | succ left ih =>
    intro i size pos s h spare same own cover
    rw [writeBlocks]
    by_cases more : i ≤ lastblk
    case neg =>
      rw [if_neg more]
      exact .inl ⟨s, rfl, .refl h spare ino (by omega) val, fun j ge lt => by omega⟩
    rw [if_pos more]
    cases mapped : s.bmap ino i with
    | none =>
      rw [FsM.bind_run, h.inodeBlock_none spare mapped]
      exact .inr ⟨rfl, i, le_rfl, by omega, mapped⟩
    | some a =>
      have len : copySize 1024 size 0 = min size 1024 := copySize_eq (Nat.zero_le _)
      have mine : 0 < copySize 1024 size 0 → s.Own ino n i := fun pos => own i le_rfl (by omega) (by omega)
      have fits : 0 + copySize 1024 size 0 ≤ 1024 := by omega
      obtain ⟨t, first, round⟩ := h.round_ok spare mapped mine fits (fun x => buf (pos + x)) val
        fun x lt => same x (by omega)
      rw [round]
      have last : min (i + 1 + left) (lastblk + 1) = min (i + (left + 1)) (lastblk + 1) := by omega
      by_cases whole : size > 1024
      · -- a full block: the run goes on in the next one
        have here : copySize 1024 size 0 = 1024 := by omega
        rw [if_pos whole, here]
        have next : ∀ x < size - 1024, buf (pos + 1024 + x) = val ((i + 1) * 1024 + x) := fun x lt => by
          have := same (1024 + x) (by omega)
          rwa [← Nat.add_assoc, ← Nat.add_assoc, show i * 1024 + 1024 = (i + 1) * 1024 by omega] at this
        rcases ih (i + 1) (size - 1024) (pos + 1024) t first.coherent first.spare next
          (fun j ge lt inside => first.own (own j (by omega) (by omega) (by omega))) (by omega)
          with ⟨u, run, second, mapped'⟩ | ⟨run, j, ge, lt, none⟩
        · refine .inl ⟨u, run, ?_, fun j ge lt => ?_⟩
          · have first : Wrote s t ino (i * 1024) ((i + 1) * 1024) val := by
              have range : i * 1024 + 0 + copySize 1024 size 0 = (i + 1) * 1024 := by omega
              rwa [range, Nat.add_zero] at first
            rw [last, show (i + 1) * 1024 + (size - 1024) = i * 1024 + size by omega] at second
            exact first.trans second (fun j lt gt => own j (by omega) (by omega) (by omega)) (by omega) (by omega) (by omega)
          · by_cases e : j = i
            · rw [e, mapped]; simp
            · rw [← first.bmap]
              exact mapped' j (by omega) (by omega)
        · exact .inr ⟨run, j, by omega, by omega, by rw [← first.bmap]; exact none⟩
      · -- the data ends in this block: the rounds that follow write nothing
        have here : copySize 1024 size 0 = size := by omega
        rw [if_neg whole, here]
        rcases ih (i + 1) 0 (pos + size) t first.coherent first.spare (fun x lt => by omega)
          (fun j ge lt inside => by omega) (by omega) with ⟨u, run, second, mapped'⟩ | ⟨run, j, ge, lt, none⟩
        · refine .inl ⟨u, run, ?_, fun j ge lt => ?_⟩
          · have range : min (i * 1024 + size) (min (i + (left + 1)) (lastblk + 1) * 1024) = i * 1024 + 0 + copySize 1024 size 0 := by
              omega
            have start : i * 1024 = i * 1024 + 0 := rfl
            rw [range, start]
            exact first.then_nothing second (by omega)
          · by_cases e : j = i
            · rw [e, mapped]; simp
            · rw [← first.bmap]
              exact mapped' j (by omega) (by omega)
        · exact .inr ⟨run, j, by omega, by omega, by rw [← first.bmap]; exact none⟩

/-- The loop from any offset, split at the first block boundary: the first block takes what
fits, and the rest of the blocks share what the loop then believes to be left. -/
theorem Coherent.writeBlocks_split (h : Coherent s) (spare : s.Spare) (ino : InodeId) (lastblk n left size : Nat)
    (buf : Nat → BitVec 8) {i ooff : Nat} (lt : ooff < 1024) (more : i ≤ lastblk) (cover : min (i + (left + 1)) (lastblk + 1) ≤ n)
    (own : ∀ j, i ≤ j → j < min (i + (left + 1)) (lastblk + 1) → j * 1024 < i * 1024 + ooff + size → s.Own ino n j) :
    (∃ t u, writeBlocks ino buf 1024 lastblk (left + 1) i size ooff 0 s = .ok ((), u) ∧
      Wrote s t ino (i * 1024 + ooff) (i * 1024 + ooff + min size (1024 - ooff)) (fun k => buf (k - (i * 1024 + ooff))) ∧
      Wrote t u ino ((i + 1) * 1024)
        (min ((i + 1) * 1024 + (size - 1024)) (min (i + (left + 1)) (lastblk + 1) * 1024))
        (fun k => buf (min size (1024 - ooff) + (k - (i + 1) * 1024))) ∧
      ∀ j, i ≤ j → j < min (i + (left + 1)) (lastblk + 1) → s.bmap ino j ≠ none) ∨
    (writeBlocks ino buf 1024 lastblk (left + 1) i size ooff 0 s = .error .undefined ∧
      ∃ j, i ≤ j ∧ j < min (i + (left + 1)) (lastblk + 1) ∧ s.bmap ino j = none) := by
  rw [writeBlocks, if_pos more]
  cases mapped : s.bmap ino i with
  | none =>
    rw [FsM.bind_run, h.inodeBlock_none spare mapped]
    exact .inr ⟨rfl, i, le_rfl, by omega, mapped⟩
  | some a =>
    have len : copySize 1024 size ooff = min size (1024 - ooff) := copySize_eq (Nat.le_of_lt lt)
    have mine : 0 < copySize 1024 size ooff → s.Own ino n i := fun pos => own i le_rfl (by omega) (by omega)
    have fits : ooff + copySize 1024 size ooff ≤ 1024 := by omega
    obtain ⟨t, first, round⟩ := h.round_ok spare mapped mine fits (fun x => buf (0 + x))
      (fun k => buf (k - (i * 1024 + ooff))) fun x lt => congrArg buf (by omega)
    have rest : (if size > 1024 then size - 1024 else 0) = size - 1024 := by split <;> omega
    have last : min (i + 1 + left) (lastblk + 1) = min (i + (left + 1)) (lastblk + 1) := by omega
    rw [round, rest]
    rcases Coherent.writeAligned ino lastblk n buf (fun k => buf (min size (1024 - ooff) + (k - (i + 1) * 1024))) left
      (i + 1) (size - 1024) (0 + copySize 1024 size ooff) t first.coherent first.spare
      (fun x lt => congrArg buf (by omega))
      (fun j ge lt inside => first.own (own j (by omega) (by omega) (by omega))) (by omega)
      with ⟨u, run, second, mapped'⟩ | ⟨run, j, ge, lt, none⟩
    · refine .inl ⟨t, u, run, by rwa [len] at first, by rwa [last] at second, fun j ge lt => ?_⟩
      by_cases e : j = i
      · rw [e, mapped]; simp
      · rw [← first.bmap]
        exact mapped' j (by omega) (by omega)
    · exact .inr ⟨run, j, by omega, by omega, by rw [← first.bmap]; exact none⟩

/-- The loop writes all its data when it starts on a block boundary or stays in one block. -/
theorem Coherent.writeBlocks_ok (h : Coherent s) (spare : s.Spare) (ino : InodeId) (lastblk n left : Nat) {off size : Nat}
    (buf : Nat → BitVec 8) (safe : off % 1024 = 0 ∨ off % 1024 + size ≤ 1024)
    (cover : min (off / 1024 + left) (lastblk + 1) ≤ n)
    (own : ∀ j, off / 1024 ≤ j → j < min (off / 1024 + left) (lastblk + 1) → j * 1024 < off + size → s.Own ino n j) :
    (∃ t, writeBlocks ino buf 1024 lastblk left (off / 1024) size (off % 1024) 0 s = .ok ((), t) ∧
      Wrote s t ino off (min (off + size) (min (off / 1024 + left) (lastblk + 1) * 1024)) (fun k => buf (k - off)) ∧
      ∀ j, off / 1024 ≤ j → j < min (off / 1024 + left) (lastblk + 1) → s.bmap ino j ≠ none) ∨
    (writeBlocks ino buf 1024 lastblk left (off / 1024) size (off % 1024) 0 s = .error .undefined ∧
      ∃ j, off / 1024 ≤ j ∧ j < min (off / 1024 + left) (lastblk + 1) ∧ s.bmap ino j = none) := by
  have start : off / 1024 * 1024 + off % 1024 = off := by omega
  by_cases aligned : off % 1024 = 0
  · have base : off / 1024 * 1024 = off := by omega
    have written := Coherent.writeAligned ino lastblk n buf (fun k => buf (k - off)) left (off / 1024) size 0 s h spare
      (fun x lt => congrArg buf (by omega)) (fun j ge lt inside => own j ge lt (by omega)) cover
    rw [base] at written
    rw [aligned]
    exact written
  · have inside := safe.resolve_left aligned
    cases left with
    | zero => exact .inl ⟨s, rfl, .refl h spare ino (by omega) _, fun j ge lt => by omega⟩
    | succ left =>
      by_cases more : off / 1024 ≤ lastblk
      · rcases h.writeBlocks_split spare ino lastblk n left size buf (Nat.mod_lt off (by decide)) more cover
          (fun j ge lt inside => own j ge lt (by omega)) with ⟨t, u, run, first, second, mapped⟩ | failed
        · refine .inl ⟨u, run, ?_, mapped⟩
          have range : min (off + size) (min (off / 1024 + (left + 1)) (lastblk + 1) * 1024) =
              off / 1024 * 1024 + off % 1024 + min size (1024 - off % 1024) := by omega
          have whole := first.then_nothing second (by omega)
          rwa [← range, start] at whole
        · exact .inr failed
      · refine .inl ⟨s, ?_, .refl h spare ino (by omega) _, fun j ge lt => by omega⟩
        rw [writeBlocks, if_neg more]
        rfl

/-- The block of the inode's record. -/
def Fs.record (s : Fs) (ino : InodeId) : BitVec 32 := s.sb.recordBlock (s.itable ino).inum

/-- The offset of the record in its block. -/
def Fs.recordOff (s : Fs) (ino : InodeId) : Nat :=
  ((s.itable ino).inum - 1).toNat % s.sb.perBlock * s.sb.inode_size.toNat

/-- The record of the inode lies inside a block of the inode table. -/
def Fs.RecordFits (s : Fs) (ino : InodeId) : Prop :=
  s.sb.inode_size.toNat ≠ 0 ∧ s.sb.perBlock ≠ 0 ∧ s.recordOff ino + 100 ≤ BUFSIZE

/-- `inode_sync` changes the block of the record and nothing else. -/
theorem Coherent.inodeSync_ok (h : Coherent s) (spare : s.Spare) (fits : s.RecordFits ino) (pos : s.record ino ≠ 0) :
    ∃ t, inodeSync ino s = .ok ((), t) ∧ Coherent t ∧ t.Spare ∧ t.sb = s.sb ∧ t.itable = s.itable ∧
      ∀ a, a ≠ s.record ino → t.disk a = s.disk a := by
  obtain ⟨size, per, inside⟩ := fits
  obtain ⟨b, slot, read⟩ := h.bioRead_ok (spare.room (s.record ino))
  have raw : ext2RawInode (s.itable ino).inum s =
      .ok ((b, s.recordOff ino), s.hold b (s.record ino) (s.disk (s.record ino))) := by
    rw [ext2RawInode, FsM.bind_of_ok FsM.get_run, if_neg (not_or.2 ⟨size, per⟩)]
    exact FsM.bind_of_ok read
  refine ⟨s.put b (s.record ino) ((s.itable ino).encode (s.disk (s.record ino)) (s.recordOff ino)), ?_, h.letGo_write slot pos,
    spare.put .., rfl, rfl, fun a ne => ?_⟩
  · rw [inodeSync, FsM.bind_of_ok FsM.get_run, FsM.bind_of_ok raw]
    simp only
    rw [FsM.bind_of_ok (bufData_hold ..), if_pos inside, FsM.bind_of_ok (setBufData_hold ..),
      FsM.bind_of_ok (bioWrite_hold ..)]
    exact bioFree_hold (s := s.write (s.record ino) _) _ (h.valid b) slot
  · rw [Fs.put_disk, Function.update_of_ne ne]

end Loop

end Aarch64Os.Kernel
