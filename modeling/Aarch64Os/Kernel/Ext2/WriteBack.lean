import Mathlib
import Aarch64Os.Kernel.Ext2.Grow

/-!
# Reading back what was written (`ext2_w_inode`, `ext2_read_inode`)

A write is to leave its bytes where a read finds them, and every other byte of the file
as it was. `ext2_w_inode` returns the full length whatever it has stored: it adds no block
for a last part that is less than a block, it looks at no failure to add blocks, and after
a first block filled in part it takes a whole block off what is left.
-/

namespace Aarch64Os.Kernel
set_option autoImplicit false
set_option maxRecDepth 4000
open Base

/-- The inode and its metadata on a consistent volume, with the cache as the file system
functions leave it between calls. Logical blocks may be holes, mapped to block 0. -/
structure Volume (s : Fs) (ino : InodeId) : Prop where
  coherent : Coherent s
  spare : s.Spare
  fits : s.RecordFits ino
  record : s.record ino ≠ 0
  record_map : s.record ino ≠ (s.itable ino).block 12
  bitmap : s.sb.block_bitmap ≠ 0
  bitmap_map : s.sb.block_bitmap ≠ (s.itable ino).block 12
  data : ∀ j a, j < (s.itable ino).nblock → s.bmap ino j = some a → a ≠ 0 →
    a ≠ s.record ino ∧ a ≠ s.sb.block_bitmap ∧ a ≠ (s.itable ino).block 12

/-- What a write of `n` bytes at `off` is to do when it returns `m ≥ 0`: `m` bytes read back
are the first `m` of the buffer, and every other byte of the old file reads as before. -/
def ReadsBack (s : Fs) (ino : InodeId) (off n : BitVec 64) : Prop :=
  ∀ buf m t, ext2WInode ino buf off n s = .ok (m, t) → 0 ≤ m →
    (∃ u, ext2ReadInode ino off (BitVec.ofInt 64 m) t = .ok ((m, (List.range m.toNat).map buf), u)) ∧
    ∀ k, k < (s.itable ino).size.toNat → k < off.toNat ∨ off.toNat + m.toNat ≤ k →
      (ext2ReadInode ino (BitVec.ofNat 64 k) (BitVec.ofNat 64 1) t).map Prod.fst =
        (ext2ReadInode ino (BitVec.ofNat 64 k) (BitVec.ofNat 64 1) s).map Prod.fst

/-- Logical block `j` is mapped to a block that no other logical block is mapped to. -/
def Fs.Private (s : Fs) (ino : InodeId) (j : Nat) : Prop :=
  ∀ a, s.bmap ino j = some a →
    a ≠ 0 ∧ ∀ j', j' < (s.itable ino).nblock → j' ≠ j → s.bmap ino j' ≠ some a

/-- The state of a file, seen from its old state, once `n` bytes have been put at `off`. -/
structure Stored (s t : Fs) (ino : InodeId) (off n : Nat) (buf : Nat → BitVec 8) : Prop where
  coherent : Coherent t
  spare : t.Spare
  sb : t.sb = s.sb
  itable : t.itable = s.itable
  bmap : t.bmap ino = s.bmap ino
  bytes : ∀ j a (x : Fin BUFSIZE), j < (s.itable ino).nblock → s.bmap ino j = some a →
    t.disk a x = if off ≤ j * 1024 + x ∧ j * 1024 + x < off + n then buf (j * 1024 + x - off) else s.disk a x
  mapped : ∀ j, off / 1024 ≤ j → j ≤ (off + n) / 1024 → j < (s.itable ino).nblock → s.bmap ino j ≠ none

section Store
variable {s t : Fs} {ino : InodeId}

/-- The writing loop and `inode_sync`, for an inode that has the blocks it needs: the bytes
are stored, or a block out of reach stops the kernel. -/
theorem Coherent.store_ok (h : Coherent s) (spare : s.Spare) {off n : Nat} (buf : Nat → BitVec 8)
    (safe : off % 1024 = 0 ∨ off % 1024 + n ≤ 1024) (grown : (off + n) / 1024 ≤ (s.itable ino).nblock)
    (own : ∀ j, off / 1024 ≤ j → j * 1024 < off + n → j < (s.itable ino).nblock → s.Own ino (s.itable ino).nblock j)
    (fits : s.RecordFits ino) (record : s.record ino ≠ 0) (record_map : s.record ino ≠ (s.itable ino).block 12)
    (data : ∀ j a, j < (s.itable ino).nblock → s.bmap ino j = some a → a ≠ s.record ino) {α : Type} (r : α) :
    (∃ t, (do writeBlocks ino buf 1024 ((off + n) / 1024) ((s.itable ino).nblock - off / 1024) (off / 1024) n (off % 1024) 0
              inodeSync ino
              pure r : FsM α) s = .ok (r, t) ∧ Stored s t ino off n buf) ∨
    (do writeBlocks ino buf 1024 ((off + n) / 1024) ((s.itable ino).nblock - off / 1024) (off / 1024) n (off % 1024) 0
        inodeSync ino
        pure r : FsM α) s = .error .undefined := by
  have count : off / 1024 + ((s.itable ino).nblock - off / 1024) = (s.itable ino).nblock := by omega
  rcases h.writeBlocks_ok spare ino ((off + n) / 1024) (s.itable ino).nblock ((s.itable ino).nblock - off / 1024) buf safe
    (by omega) (fun j ge lt inside => own j ge inside (by omega)) with ⟨u, run, wrote, mapped⟩ | ⟨run, -⟩
  · have same : u.record ino = s.record ino := by simp only [Fs.record, wrote.sb, wrote.itable]
    have fits' : u.RecordFits ino := by
      simp only [Fs.RecordFits, Fs.recordOff, wrote.sb, wrote.itable]
      exact fits
    obtain ⟨t, sync, coherent, spare', sb, itable, disk⟩ := wrote.coherent.inodeSync_ok wrote.spare fits'
      (by rw [same]; exact record)
    rw [same] at disk
    refine .inl ⟨t, by rw [FsM.bind_of_ok run, FsM.bind_of_ok sync]; rfl, ?_⟩
    refine ⟨coherent, spare', sb.trans wrote.sb, itable.trans wrote.itable, ?_, fun j a x lt mapped => ?_, ?_⟩
    · rw [← wrote.bmap]
      refine Fs.bmap_congr (by rw [itable]) ?_
      rw [wrote.itable]
      exact disk _ record_map.symm
    · rw [disk a (data j a lt mapped)]
      have bound := x.2
      simp only [BUFSIZE] at bound
      by_cases touched : j * 1024 < off + n ∧ off < (j + 1) * 1024
      · rw [wrote.inside j a x mapped (by omega) touched.2]
        by_cases range : off ≤ j * 1024 + (x : Nat) ∧ j * 1024 + (x : Nat) < off + n
        · have inside : off ≤ j * 1024 + (x : Nat) ∧ j * 1024 + (x : Nat) <
            min (off + n) (min (off / 1024 + ((s.itable ino).nblock - off / 1024)) ((off + n) / 1024 + 1) * 1024) := by omega
          rw [if_pos range, if_pos inside]
        · have outside : ¬ (off ≤ j * 1024 + (x : Nat) ∧ j * 1024 + (x : Nat) <
            min (off + n) (min (off / 1024 + ((s.itable ino).nblock - off / 1024)) ((off + n) / 1024 + 1) * 1024)) := by omega
          rw [if_neg range, if_neg outside]
      · have kept : u.disk a = s.disk a := wrote.outside a fun j' lt' gt' mapped' => by
          obtain ⟨-, -, alone⟩ := own j' (by omega) (by omega) (by omega) a mapped'
          exact alone j lt (fun e => touched (by subst e; omega)) mapped
        have outside : ¬ (off ≤ j * 1024 + (x : Nat) ∧ j * 1024 + (x : Nat) < off + n) := by omega
        rw [kept, if_neg outside]
    · intro j ge le lt
      exact mapped j ge (by omega)
  · refine .inr ?_
    rw [FsM.bind_run, run]
    rfl

namespace Stored
variable {off n : Nat} {buf : Nat → BitVec 8}

theorem nblock (h : Stored s t ino off n buf) : (t.view ino).nblock = (s.view ino).nblock := by
  simp only [Fs.view, h.itable]

theorem block_none (h : Stored s t ino off n buf) (j : Nat) :
    (t.view ino).block j = none ↔ (s.view ino).block j = none := by
  simp only [Fs.view, h.bmap, Option.map_eq_none_iff]

/-- A byte in a mapped block. -/
theorem byteAt_mapped (h : Stored s t ino off n buf) {k : Nat} (lt : k / 1024 < (s.itable ino).nblock)
    {a : BitVec 32} (mapped : s.bmap ino (k / 1024) = some a) :
    (t.view ino).byteAt k = if off ≤ k ∧ k < off + n then buf (k - off) else (s.view ino).byteAt k := by
  have index : k / 1024 * 1024 + k % 1024 = k := by omega
  have inside : k % 1024 < BUFSIZE := by simp only [BUFSIZE]; omega
  have bytes := h.bytes (k / 1024) a ⟨k % 1024, inside⟩ lt mapped
  simp only [index] at bytes
  simp only [FileView.byteAt, Fs.view, h.bmap, mapped, Option.map_some, byte, inside, dif_pos]
  exact bytes

/-- A byte outside the run. -/
theorem byteAt_outside (h : Stored s t ino off n buf) {k : Nat} (lt : k / 1024 < (s.itable ino).nblock)
    (out : k < off ∨ off + n ≤ k) : (t.view ino).byteAt k = (s.view ino).byteAt k := by
  cases mapped : s.bmap ino (k / 1024) with
  | none => simp only [FileView.byteAt, Fs.view, h.bmap, mapped, Option.map_none]
  | some a => rw [h.byteAt_mapped lt mapped, if_neg (by omega)]

/-- A reader sees every byte outside the run as before. -/
theorem one (h : Stored s t ino off n buf) {k : Nat} (out : k < off ∨ off + n ≤ k) :
    (t.view ino).one k = (s.view ino).one k :=
  FileView.one_congr (by rw [h.nblock]) (fun _ => h.block_none _) (fun lt => h.byteAt_outside lt out)
    (by rw [h.nblock, h.block_none])

/-- Reading the run returns the buffer. -/
theorem read_back (h : Stored s t ino off n buf) (size : s.sb.bsize = 1024#32)
    (le : off + n ≤ (s.itable ino).size.toNat) (held : 0 < n → off + n ≤ (s.itable ino).nblock * 1024) :
    ext2ReadInode ino (BitVec.ofNat 64 off) (BitVec.ofNat 64 n) t =
      .ok (((BitVec.ofNat 32 n).toInt, (List.range n).map buf), t) := by
  have small : (t.view ino).size < 2 ^ 32 := (t.itable ino).size.isLt
  have count : min n ((s.view ino).nblock * 1024 - off) = n := by
    change min n ((s.itable ino).nblock * 1024 - off) = n
    omega
  have bsize : t.sb.bsize.toNat = 1024 := by rw [h.sb, size]; rfl
  have le' : off + n ≤ (t.view ino).size := by
    simp only [Fs.view, h.itable]
    exact le
  rw [h.coherent.ext2ReadInode_eq h.spare, bsize, FileView.read_bytes _ small le', h.nblock, count]
  · have bytes : (t.view ino).bytes off n = (List.range n).map buf := by
      refine List.map_congr_left fun x mem => ?_
      have lt := List.mem_range.1 mem
      obtain ⟨a, mapped⟩ := Option.ne_none_iff_exists'.1 (h.mapped ((off + x) / 1024) (by omega) (by omega) (by omega))
      rw [h.byteAt_mapped (by omega) mapped, if_pos ⟨by omega, by omega⟩, Nat.add_sub_cancel_left]
    rw [bytes]
    rfl
  · intro j ge le lt none
    rw [h.nblock] at lt
    refine h.mapped j ge le lt ?_
    simpa [Fs.view] using (h.block_none j).1 none

end Stored

/-- The size after a write that ends at `e`. -/
def Fs.resize (s : Fs) (ino : InodeId) (e : Nat) : Fs :=
  s.setInode ino fun x => { x with size := BitVec.ofNat 32 (max x.size.toNat e) }

/-- `ext2_w_inode` inside 32 bits: the size is set, then blocks are added, then data is stored. -/
theorem ext2WInode_eq (s : Fs) (ino : InodeId) (buf : Nat → BitVec 8) {off n : BitVec 64} (size : s.sb.bsize = 1024#32)
    (le : off.toNat ≤ (s.itable ino).size.toNat) (nowrap : off.toNat + n.toNat < 2 ^ 32) :
    ext2WInode ino buf off n s =
      (do growTo ino ((off.toNat + n.toNat) / 1024)
          let s ← get
          writeBlocks ino buf 1024 ((off.toNat + n.toNat) / 1024) ((s.itable ino).nblock - off.toNat / 1024)
            (off.toNat / 1024) n.toNat (off.toNat % 1024) 0
          inodeSync ino
          pure (n.setWidth 32).toInt : FsM Int) (s.resize ino (off.toNat + n.toNat)) := by
  have sum : (off + n).toNat = off.toNat + n.toNat := by
    rw [BitVec.toNat_add, Nat.mod_eq_of_lt]
    omega
  have sum' : (n + off).toNat = off.toNat + n.toNat := by rw [BitVec.add_comm, sum]
  have state : (if (off + n).toNat > (s.itable ino).size.toNat then
      s.setInode ino fun x => { x with size := (off + n).setWidth 32 } else s) = s.resize ino (off.toNat + n.toNat) := by
    have bound := (s.itable ino).size.isLt
    rw [sum]
    by_cases more : off.toNat + n.toNat > (s.itable ino).size.toNat
    · have new : (off + n).setWidth 32 = BitVec.ofNat 32 (max (s.itable ino).size.toNat (off.toNat + n.toNat)) := by
        refine BitVec.eq_of_toNat_eq ?_
        rw [BitVec.toNat_setWidth, sum, BitVec.toNat_ofNat, max_eq_right (by omega)]
      simp only [if_pos more, Fs.resize, Fs.setInode, new]
    · have old : BitVec.ofNat 32 (max (s.itable ino).size.toNat (off.toNat + n.toNat)) = (s.itable ino).size := by
        rw [max_eq_left (by omega)]
        exact BitVec.ofNat_toNat _ _
      simp only [if_neg more, Fs.resize, Fs.setInode, old, Function.update_eq_self]
  have first : off.toNat / 1024 % 2 ^ 32 = off.toNat / 1024 := Nat.mod_eq_of_lt (by omega)
  have last : (off.toNat + n.toNat) / 1024 % 2 ^ 32 = (off.toNat + n.toNat) / 1024 := Nat.mod_eq_of_lt (by omega)
  have bsize : s.sb.bsize.toNat = 1024 := by rw [size]; rfl
  rw [ext2WInode, FsM.bind_of_ok FsM.get_run, if_neg (by omega), FsM.bind_of_ok (FsM.set_run _), state, bsize,
    if_neg (by decide), sum']
  simp only [first, last]

/-- Setting the size changes nothing else. -/
theorem Fs.resize_itable (s : Fs) (ino : InodeId) (e : Nat) :
    (s.resize ino e).itable ino = { s.itable ino with size := BitVec.ofNat 32 (max (s.itable ino).size.toNat e) } :=
  Fs.setInode_self ..

theorem Fs.resize_nblock (s : Fs) (ino : InodeId) (e : Nat) :
    ((s.resize ino e).itable ino).nblock = (s.itable ino).nblock := by
  rw [Fs.resize_itable]
  rfl

theorem Fs.resize_bmap (s : Fs) (ino : InodeId) (e : Nat) : (s.resize ino e).bmap ino = s.bmap ino := by
  funext i
  simp only [Fs.bmap, Fs.resize_itable]
  rfl

theorem Fs.resize_disk (s : Fs) (ino : InodeId) (e : Nat) : (s.resize ino e).disk = s.disk := rfl

theorem Fs.resize_view (s : Fs) (ino : InodeId) (e : Nat) :
    (s.resize ino e).view ino = { s.view ino with size := ((s.resize ino e).itable ino).size.toNat } := by
  simp only [Fs.view, Fs.resize_nblock, Fs.resize_bmap, Fs.resize_disk]

theorem Fs.resize_one (s : Fs) (ino : InodeId) (e k : Nat) : ((s.resize ino e).view ino).one k = (s.view ino).one k := by
  rw [Fs.resize_view]
  rfl

theorem Volume.resize (h : Volume s ino) (e : Nat) : Volume (s.resize ino e) ino where
  coherent := h.coherent.setInode ..
  spare := h.spare
  fits := by
    simp only [Fs.RecordFits, Fs.recordOff, Fs.resize_itable]
    exact h.fits
  record := by
    simp only [Fs.record, Fs.resize_itable]
    exact h.record
  record_map := by
    simp only [Fs.record, Fs.resize_itable]
    exact h.record_map
  bitmap := h.bitmap
  bitmap_map := by
    rw [Fs.resize_itable]
    exact h.bitmap_map
  data j a lt mapped ne := by
    rw [Fs.resize_nblock] at lt
    rw [Fs.resize_bmap] at mapped
    simp only [Fs.record, Fs.resize_itable]
    exact h.data j a lt mapped ne

end Store

end Aarch64Os.Kernel
