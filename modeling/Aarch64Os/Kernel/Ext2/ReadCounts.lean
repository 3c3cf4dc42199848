import Mathlib
import Aarch64Os.Base.Transition
import Aarch64Os.Kernel.Ext2.ReadRight
import Aarch64Os.Kernel.FileIo

/-!
# The count of a read

`ext2_read_inode` cuts a request to the size of the file after adding it to the offset in 64
bits, and its loop ends with the blocks the inode counts. So the count is the one a caller
expects where the sum does not wrap and the blocks counted cover what is asked for.
-/

namespace Aarch64Os.Kernel
set_option autoImplicit false
open Base

/-- Where the count is right, on a file of `isize` bytes that counts `nblock` blocks. -/
def CountFits (isize nblock bsize off size : Nat) : Prop :=
  isize < off ∨ 0 < bsize ∧
    if off + size < 2 ^ 64 then
      -- the blocks counted cover the request, and the loop stays inside the map and the buffers
      (min size (isize - off) = 0 ∨ off + min size (isize - off) ≤ nblock * bsize) ∧
        ∀ j < nblock, off / bsize ≤ j → j ≤ (off + min size (isize - off)) / bsize →
          j < 268 ∧ min (off + min size (isize - off) - j * bsize) bsize ≤ BUFSIZE
    else if (off + size - 2 ^ 64) / bsize = off / bsize ∧ off / bsize < nblock then
      -- one round, which copies up to the end of its block
      off / bsize < 268 ∧ bsize ≤ BUFSIZE ∧ isize = (off / bsize + 1) * bsize
    else isize = off

instance (isize nblock bsize off size : Nat) : Decidable (CountFits isize nblock bsize off size) := by
  unfold CountFits
  infer_instance

/-- The count is the one expected: -1 just past the end, and else what is asked for up to the end. -/
def CountRight (r : Except Fault (Int × List (BitVec 8))) (isize off size : Nat) : Prop :=
  ∃ n bytes, r = .ok (n, bytes) ∧ (n = -1 ↔ isize < off) ∧
    (off ≤ isize → n = (min size (isize - off) : Nat) ∧ bytes.length = min size (isize - off))

/-- A result of as many bytes as were copied. -/
theorem countRight_map {r : Except Fault (List (BitVec 8))} {isize off size : Nat} (le : off ≤ isize)
    (small : ∀ bytes, r = .ok bytes → bytes.length < 2 ^ 31) :
    CountRight (r.map fun bytes => ((BitVec.ofNat 32 bytes.length).toInt, bytes)) isize off size ↔
      ∃ bytes, r = .ok bytes ∧ bytes.length = min size (isize - off) := by
  constructor
  · intro ⟨n, bytes, run, _, counts⟩
    cases r with
    | error e => cases run
    | ok bytes' =>
      cases run
      exact ⟨bytes, rfl, (counts le).2⟩
  · intro ⟨bytes, run, length⟩
    have count : (BitVec.ofNat 32 bytes.length).toInt = (bytes.length : Int) := by
      have below := small bytes run
      rw [BitVec.toInt_eq_toNat_of_lt, BitVec.toNat_ofNat, Nat.mod_eq_of_lt (by omega)]
      rw [BitVec.toNat_ofNat, Nat.mod_eq_of_lt] <;> omega
    refine ⟨(BitVec.ofNat 32 bytes.length).toInt, bytes, by rw [run]; rfl, ?_, fun _ => ?_⟩
    · rw [count]
      omega
    · rw [count, length]
      exact ⟨rfl, rfl⟩

/-- The blocks a loop visits cover the request where it is empty or ends within the blocks counted. -/
theorem covers_iff {bsize : Nat} (pos : 0 < bsize) (off n nblock : Nat) :
    min n (min (off / bsize + (nblock - off / bsize)) ((off + n) / bsize + 1) * bsize - off) = n ↔
      n = 0 ∨ off + n ≤ nblock * bsize := by
  have first : off / bsize * bsize ≤ off := Nat.div_mul_le_self off bsize
  have last : off + n < ((off + n) / bsize + 1) * bsize := by
    rw [Nat.mul_comm]
    exact Nat.lt_mul_div_succ _ pos
  rw [← Nat.mul_min_mul_right]
  obtain le | le := Nat.le_total nblock (off / bsize)
  · have count := Nat.mul_le_mul_right bsize le
    have none : off / bsize + (nblock - off / bsize) = off / bsize := by omega
    rw [none]
    omega
  · have all : off / bsize + (nblock - off / bsize) = nblock := by omega
    rw [all]
    omega

namespace FileView
variable (v : FileView)

/-- The loop comes to its end with `count` bytes. -/
theorem readBlocks_counts {bsize : Nat} (lastblk left i size ooff count : Nat) (lt : ooff < bsize) :
    (∃ bytes, v.readBlocks bsize lastblk left i size ooff = .ok bytes ∧ bytes.length = count) ↔
      (∀ j, i ≤ j → j < i + left → j ≤ lastblk →
        v.block j ≠ none ∧ min (i * bsize + ooff + size - j * bsize) bsize ≤ BUFSIZE) ∧
      min size (min (i + left) (lastblk + 1) * bsize - (i * bsize + ooff)) = count := by
  rw [← v.readBlocks_returns lastblk left i size ooff lt]
  constructor
  · intro ⟨bytes, run, length⟩
    exact ⟨⟨bytes, run⟩, by rw [← v.readBlocks_count lastblk left i size ooff bytes lt run, length]⟩
  · intro ⟨⟨bytes, run⟩, count⟩
    exact ⟨bytes, run, by rw [v.readBlocks_count lastblk left i size ooff bytes lt run, count]⟩

/-- **The count of a read of a file** is the one expected just where it fits. -/
theorem read_countRight (small : v.size < 2 ^ 32) (reach : ∀ j, v.block j ≠ none ↔ j < 268) {bsize : Nat} (word : bsize < 2 ^ 32)
    (off size : BitVec 64) :
    CountRight (v.read bsize off size) v.size off.toNat size.toNat ↔ CountFits v.size v.nblock bsize off.toNat size.toNat := by
  unfold CountFits
  by_cases past : v.size < off.toNat
  · apply iff_of_true
    · refine ⟨-1, [], by rw [read, if_pos past], by simp [past], fun le => ?_⟩
      omega
    · exact .inl past
  have le : off.toNat ≤ v.size := by omega
  by_cases zero : bsize = 0
  · apply iff_of_false
    · rintro ⟨n, bytes, run, -⟩
      rw [read, if_neg past] at run
      simp [zero] at run
    · omega
  have pos : 0 < bsize := by omega
  have lt : off.toNat % bsize < bsize := Nat.mod_lt _ pos
  have start : off.toNat / bsize * bsize + off.toNat % bsize = off.toNat := by
    rw [Nat.mul_comm]
    exact Nat.div_add_mod ..
  have short : ∀ lastblk left size bytes,
      v.readBlocks bsize lastblk left (off.toNat / bsize) size (off.toNat % bsize) = .ok bytes → bytes.length < 2 ^ 31 := by
    intro lastblk left size bytes run
    have bound := v.readBlocks_small (fun j => (reach j).1) lastblk left _ size _ bytes run
    generalize off.toNat / bsize = first at bound
    omega
  simp only [past, false_or, pos, true_and]
  by_cases fits : off.toNat + size.toNat < 2 ^ 64
  · rw [v.read_clamped pos small le fits, countRight_map le (short _ _ _), v.readBlocks_counts _ _ _ _ _ _ lt, if_pos fits, start,
      covers_iff pos, and_comm]
    apply and_congr Iff.rfl
    constructor
    · intro all j counted ge last
      rw [← reach]
      exact all j ge (by omega) last
    · intro all j ge counted last
      rw [reach]
      exact all j (by omega) ge last
  · rw [v.read_wrapped pos small le (by omega), countRight_map le (short _ _ _), v.readBlocks_counts _ _ _ _ _ _ lt, if_neg fits, start]
    have below := size.isLt
    have cut : min size.toNat (v.size - off.toNat) = v.size - off.toNat := by omega
    have wrapped : (off.toNat + size.toNat - 2 ^ 64) / bsize ≤ off.toNat / bsize := Nat.div_le_div_right (by omega)
    have next : (off.toNat / bsize + 1) * bsize = off.toNat / bsize * bsize + bsize := Nat.succ_mul ..
    generalize (off.toNat + size.toNat - 2 ^ 64) / bsize = last at wrapped
    rw [cut]
    by_cases round : last = off.toNat / bsize ∧ off.toNat / bsize < v.nblock
    · rw [if_pos round, round.1]
      have one : min (off.toNat / bsize + (v.nblock - off.toNat / bsize)) (off.toNat / bsize + 1) = off.toNat / bsize + 1 := by omega
      have whole : min (off.toNat + size.toNat - off.toNat / bsize * bsize) bsize = bsize := by omega
      rw [one]
      constructor
      · rintro ⟨all, count⟩
        obtain ⟨here, inside⟩ := all (off.toNat / bsize) le_rfl (by omega) le_rfl
        rw [whole] at inside
        exact ⟨(reach _).1 here, inside, by omega⟩
      · rintro ⟨here, inside, count⟩
        constructor
        · intro j ge _ last
          obtain rfl : j = off.toNat / bsize := by omega
          rw [whole]
          exact ⟨(reach _).2 here, inside⟩
        · omega
    · rw [if_neg round]
      -- no round
      have none : min (off.toNat / bsize + (v.nblock - off.toNat / bsize)) (last + 1) * bsize ≤ off.toNat / bsize * bsize :=
        Nat.mul_le_mul_right bsize (by omega)
      constructor
      · rintro ⟨-, count⟩
        omega
      · intro eq
        constructor
        · intro j ge counted le
          omega
        · omega

end FileView

section Reads
variable {s t : Fs} {ino : InodeId} {off size : BitVec 64}

/-- `read_inode` returns the count expected, and the file system stays as it is. -/
def Fs.Counts (s : Fs) (ino : InodeId) (off size : BitVec 64) : Prop :=
  ∃ n bytes, ext2ReadInode ino off size s = .ok ((n, bytes), s) ∧ (n = -1 ↔ (s.itable ino).size.toNat < off.toNat) ∧
    (off.toNat ≤ (s.itable ino).size.toNat →
      n = (min size.toNat ((s.itable ino).size.toNat - off.toNat) : Nat) ∧
        bytes.length = min size.toNat ((s.itable ino).size.toNat - off.toNat))

/-- Where it does. -/
def Fs.CountFits (s : Fs) (ino : InodeId) (off size : BitVec 64) : Prop :=
  Kernel.CountFits (s.itable ino).size.toNat (s.itable ino).nblock s.sb.bsize.toNat off.toNat size.toNat

instance (s : Fs) (ino : InodeId) (off size : BitVec 64) : Decidable (s.CountFits ino off size) := by
  unfold Fs.CountFits
  infer_instance

/-- The count of `read_inode` in terms of the file. -/
theorem Coherent.counts_view (h : Coherent s) (spare : s.Spare) :
    s.Counts ino off size ↔ CountRight ((s.view ino).read s.sb.bsize.toNat off size) (s.itable ino).size.toNat off.toNat size.toNat := by
  unfold Fs.Counts CountRight
  rw [h.ext2ReadInode_eq spare]
  cases (s.view ino).read s.sb.bsize.toNat off size with
  | error e => simp [Except.map]
  | ok r => simp [Except.map, Prod.ext_iff]

theorem Coherent.counts_iff (h : Coherent s) (spare : s.Spare) : s.Counts ino off size ↔ s.CountFits ino off size :=
  (h.counts_view spare).trans
    ((s.view ino).read_countRight (s.itable ino).size.isLt (fun _ => Fs.view_reach_iff) s.sb.bsize.isLt off size)

end Reads

section Runs
variable {δ : Type} {cdevsw : Fin NCDEV → Cdevsw δ} {file : File} {ino : InodeId} {s : Fs} {d : δ} {sz : BitVec 64}

/-- Reads of one open file, one behind the other. -/
def fileReads (cdevsw : Fin NCDEV → Cdevsw δ) (start : File × Fs × δ) : System (File × Fs × δ) (BitVec 64) where
  init s := s = start
  step s sz := (readFile cdevsw s.1 sz s.2).toOption.map fun r => (r.1.2, r.2)

/-- A regular file or directory, open for reading, at an offset inside it. -/
structure ReadsInode (file : File) (ino : InodeId) (s : Fs) : Prop where
  readable : file.readable = true
  here : file.ino = some ino
  type : (s.itable ino).mode &&& S_IFMT = S_IFREG ∨ (s.itable ino).mode &&& S_IFMT = S_IFDIR
  inside : file.off ≤ (s.itable ino).size.toNat

/-- The call on this file fits. -/
def ReadFits (ino : InodeId) (st : File × Fs × δ) (sz : BitVec 64) : Prop := st.2.1.CountFits ino (BitVec.ofNat 64 st.1.off) sz

/-- **A read that fits** returns what is left of the file, up to the count asked for, and moves
the offset behind it. -/
theorem ReadsInode.step (h : ReadsInode file ino s) (cdevsw : Fin NCDEV → Cdevsw δ) (d : δ) (coherent : Coherent s) (spare : s.Spare)
    (fits : s.CountFits ino (BitVec.ofNat 64 file.off) sz) :
    ∃ bytes, readFile cdevsw file sz (s, d) =
      .ok (((((min sz.toNat ((s.itable ino).size.toNat - file.off) : Nat) : Int), bytes),
        { file with off := file.off + min sz.toNat ((s.itable ino).size.toNat - file.off) }), (s, d)) := by
  have inside := h.inside
  have word := (s.itable ino).size.isLt
  have off : (BitVec.ofNat 64 file.off).toNat = file.off := by
    rw [BitVec.toNat_ofNat, Nat.mod_eq_of_lt]
    omega
  obtain ⟨n, bytes, run, _, counts⟩ := (coherent.counts_iff spare).2 fits
  rw [off] at counts
  obtain ⟨rfl, length⟩ := counts inside
  have moved : file.advance (min sz.toNat ((s.itable ino).size.toNat - file.off) : Nat) =
      { file with off := file.off + min sz.toNat ((s.itable ino).size.toNat - file.off) } := by
    rw [File.advance, Int.toNat_natCast, Nat.mod_eq_of_lt]
    omega
  refine ⟨bytes, ?_⟩
  rw [readFile_inode h.readable h.here h.type, run]
  simp only [Except.map]
  rw [if_neg (by omega), moved]

/-- Reads that fit keep the offset inside the file, and change nothing else. -/
theorem ReadsInode.via (h : ReadsInode file ino s) (coherent : Coherent s) (spare : s.Spare) {st : File × Fs × δ}
    (via : (fileReads cdevsw (file, s, d)).Via (ReadFits ino) st) : ReadsInode st.1 ino s ∧ st.2 = (s, d) := by
  apply via.invariant (I := fun st => ReadsInode st.1 ino s ∧ st.2 = (s, d))
  · rintro _ rfl
    exact ⟨h, rfl⟩
  · rintro ⟨file, s', d'⟩ sz st' ⟨reads, same⟩ fits step
    cases same
    obtain ⟨bytes, run⟩ := reads.step cdevsw d coherent spare fits
    obtain ⟨r, ok, rfl⟩ := Option.map_eq_some_iff.1 step
    rw [run] at ok
    cases ok
    have inside := reads.inside
    exact ⟨⟨reads.readable, reads.here, reads.type, by dsimp only at inside ⊢; omega⟩, rfl⟩

end Runs

/-- **The count of `read_inode`** is -1 just past the end of the file, and else what is asked for
up to the end, where it fits and nowhere else. Along reads of an open file that all fit, the
offset stays inside the file, and a short count is the end of it. -/
theorem read_counts_iff (s : Fs) (ino : InodeId) (coherent : Coherent s) (spare : s.Spare) :
    (∀ off size, s.Counts ino off size ↔ s.CountFits ino off size) ∧
    ∀ (δ : Type) (cdevsw : Fin NCDEV → Cdevsw δ) file (d : δ), ReadsInode file ino s →
      ∀ file' s' d', (fileReads cdevsw (file, s, d)).Via (ReadFits ino) (file', s', d') →
        file'.off ≤ (s'.itable ino).size.toNat ∧
        ∀ sz n bytes file'' t, s'.CountFits ino (BitVec.ofNat 64 file'.off) sz →
          readFile cdevsw file' sz (s', d') = .ok (((n, bytes), file''), t) →
          n < sz.toNat → file''.off = (s'.itable ino).size.toNat := by
  constructor
  · intro off size
    exact coherent.counts_iff spare
  · intro δ cdevsw file d reads file' s' d' via
    obtain ⟨reads', same⟩ := reads.via coherent spare via
    cases same
    have inside := reads'.inside
    refine ⟨inside, fun sz n bytes file'' t fits run short => ?_⟩
    obtain ⟨bytes', run'⟩ := reads'.step cdevsw d coherent spare fits
    rw [run'] at run
    cases run
    dsimp only at inside short ⊢
    omega

/-- The file of ten bytes, open at offset 4. -/
def noteFile : File := { ref := 1, ino := some 0, off := 4, readable := true, writable := false }

theorem noteFile_reads : ReadsInode noteFile 0 (noteFs 10) where
  readable := rfl
  here := rfl
  type := by decide +kernel
  inside := by decide +kernel

/-- From there, a read of six bytes fits, and one of twenty is short at the end of the file. -/
theorem read_counts_iff_note :
    (noteFs 10).Counts 0 4#64 6#64 ∧
      ∃ bytes file' t, readFile (fun _ => (Cdevsw.null : Cdevsw Unit)) noteFile 20#64 (noteFs 10, ()) =
        .ok (((6, bytes), file'), t) ∧ file'.off = 10 := by
  have size : ((noteFs 10).itable 0).size.toNat = 10 := congrArg BitVec.toNat noteFs_file.1
  have fits : (noteFs 10).CountFits 0 4#64 6#64 := by decide +kernel
  have fits' : (noteFs 10).CountFits 0 4#64 20#64 := by decide +kernel
  constructor
  · exact ((read_counts_iff _ _ (noteFs_coherent 10) (noteFs_spare 10)).1 _ _).2 fits
  · obtain ⟨bytes, run⟩ := noteFile_reads.step (fun _ => Cdevsw.null) () (noteFs_coherent 10) (noteFs_spare 10) fits'
    rw [size] at run
    have ends := ((read_counts_iff (noteFs 10) 0 (noteFs_coherent 10) (noteFs_spare 10)).2 Unit (fun _ => Cdevsw.null) noteFile ()
      noteFile_reads noteFile (noteFs 10) () (.init rfl)).2 20#64 _ _ _ _ fits' run (by decide)
    rw [size] at ends
    exact ⟨bytes, _, _, run, ends⟩

/-- The file `f` of a mounted volume, loaded by `ext2_get_inode`. With ten bytes, a read of
2^64 - 1 bytes at offset 1 returns 1023. With two thousand, of which the second block is a hole,
a read of them all returns 1024. -/
theorem read_counts_wrong :
    (ext2Init (Fs.boot (noteVolume 10)) = .ok ((), noteMount 10) ∧ ext2GetInode 3#32 (noteMount 10) = .ok (some 0, noteFs 10) ∧
      (ext2ReadInode 0 1#64 (-1) (noteFs 10)).toOption.map (fun r => r.1.1) = some 1023 ∧ ¬ (noteFs 10).Counts 0 1#64 (-1)) ∧
    (ext2Init (Fs.boot (noteVolume 2000)) = .ok ((), noteMount 2000) ∧ ext2GetInode 3#32 (noteMount 2000) = .ok (some 0, noteFs 2000) ∧
      (ext2ReadInode 0 0#64 2000#64 (noteFs 2000)).toOption.map (fun r => r.1.1) = some 1024 ∧ ¬ (noteFs 2000).Counts 0 0#64 2000#64) := by
  constructor
  · refine ⟨noteMount_mounted 10, noteFs_loaded 10, by decide +kernel, ?_⟩
    rw [(noteFs_coherent 10).counts_iff (noteFs_spare 10)]
    decide +kernel
  · refine ⟨noteMount_mounted 2000, noteFs_loaded 2000, by decide +kernel, ?_⟩
    rw [(noteFs_coherent 2000).counts_iff (noteFs_spare 2000)]
    decide +kernel

end Aarch64Os.Kernel
