import Mathlib
import Aarch64Os.Kernel.Ext2.DirentWalk

/-!
# Searching a directory (`kernel/ext2.c`)

`ext2_search_dir` goes through as many blocks as `i_blocks` makes, which is one more than a
directory has once it needs an indirect block, and in each it stops at the first record of the
name, in use or not. When that is the entry in use, on any volume.
-/

namespace Aarch64Os.Kernel
set_option autoImplicit false
open Base

/-- The blocks of a directory; with more than twelve of them `i_blocks` also counts the indirect
block. -/
def Inode.dirBlocks (x : Inode) : Nat := if x.nblock ≤ 12 then x.nblock else x.nblock - 1

/-- From `p` on the block is a chain of records, the last of which ends with the block: each is
aligned, and long enough for its name. -/
inductive Block.Chain (blk : Block) : Nat → List Dirent → Prop
  | nil : Chain blk BUFSIZE []
  | cons {p : Nat} {ds : List Dirent} : direntRecLen blk p % 4 = 0 → 8 + direntNameLen blk p ≤ direntRecLen blk p →
    Chain blk (p + direntRecLen blk p) ds → Chain blk p (⟨le32 blk p, direntName blk p⟩ :: ds)

/-- A block of a directory: a chain of records, where those in use have a name without a NUL. -/
structure Block.Valid (blk : Block) (ds : List Dirent) : Prop where
  chain : blk.Chain 0 ds
  name : ∀ d ∈ ds, d.used = true → 0 ∉ d.name

/-- All blocks of a directory are. -/
def Fs.ValidDir (s : Fs) (x : Inode) : Prop := ∀ k < x.dirBlocks, ∃ blk ds, s.fileBlock x k = some blk ∧ blk.Valid ds

/-- The entries in use in the blocks of a directory. -/
def Fs.liveEntries (s : Fs) (x : Inode) : List Dirent := (List.range x.dirBlocks).flatMap (s.blockEntries x)

/-- `ext2_search_dir` returns the number of an entry in use of that name, or -1 if there is none. -/
def SearchRight (s : Fs) (dir : InodeId) (c : List (BitVec 8)) : Prop :=
  ∃ r t, ext2SearchDir dir (c ++ [0]) s = .ok (r, t) ∧
    ((∃ d ∈ s.liveEntries (s.itable dir), d.name = c ∧ r = d.inode.toNat) ∨
      (∀ d ∈ s.liveEntries (s.itable dir), d.name ≠ c) ∧ r = -1)

section Chain
variable {blk : Block} {p : Nat} {ds : List Dirent} {c : List (BitVec 8)}

theorem Block.Chain.le (chain : blk.Chain p ds) : p ≤ BUFSIZE := by
  induction chain with
  | nil => exact le_rfl
  | cons _ _ _ ih => omega

theorem Block.Chain.dirents (chain : blk.Chain p ds) : ∀ left, BUFSIZE < p + left → Kernel.dirents blk left p = some ds := by
  induction chain with
  | nil =>
    intro left enough
    obtain ⟨left, rfl⟩ : ∃ n, left = n + 1 := ⟨left - 1, by omega⟩
    rw [Kernel.dirents, if_pos rfl]
  | @cons p ds _ long rest ih =>
    intro left enough
    have inside := rest.le
    obtain ⟨left, rfl⟩ : ∃ n, left = n + 1 := ⟨left - 1, by omega⟩
    rw [Kernel.dirents, if_neg (by omega), if_pos ⟨long, inside⟩, ih left (by omega)]
    rfl

/-- A search in a chain meets the first record of the name. -/
theorem Block.Chain.meets (chain : blk.Chain p ds) (short : c.length < DIRENT_NAME_MAX) :
    blk.Meets c p (ds.find? fun d => cstr d.name = c) := by
  induction chain with
  | nil => exact .ending le_rfl
  | @cons p ds _ long rest ih =>
    have inside := rest.le
    have readable : blk.Readable c p := by
      refine ⟨by omega, by omega, fun runs => ?_⟩
      have most := runs.2.2.length_le
      rw [runs.2.1] at most
      omega
    by_cases same : cstr (direntName blk p) = c
    · rw [List.find?_cons_of_pos (by simpa using same)]
      exact .entry readable same
    · rw [List.find?_cons_of_neg (by simpa using same)]
      exact .next readable same (by omega) ih

theorem Block.Valid.entries (valid : blk.Valid ds) : blk.dirents = some ds := valid.chain.dirents (BUFSIZE + 1) (by omega)

end Chain

section Search
variable {s : Fs} {dir : InodeId} {c : List (BitVec 8)}

/-- A search that has passed over the first blocks returns what it meets in the next one, if that
is in use. -/
theorem Coherent.ext2SearchDir_found (h : Coherent s) (spare : s.Spare) (bsize : s.sb.bsize = 1024#32) (nul : 0 ∉ c) {k : Nat}
    (lt : k < (s.itable dir).nblock) (before : ∀ j < k, s.Passes (s.itable dir) c j) {blk : Block}
    (block : s.fileBlock (s.itable dir) k = some blk) {d : Option Dirent} (meets : blk.Meets c 0 d) (pos : 0 < metInum d) :
    ext2SearchDir dir (c ++ [0]) s = .ok (metInum d, s) := by
  obtain ⟨left, count⟩ : ∃ left, (s.itable dir).nblock = k + (left + 1) := ⟨(s.itable dir).nblock - k - 1, by omega⟩
  have search : searchDirentBlock s.sb.bsize.toNat blk (c ++ [0]) = .ok (metInum d) := by
    rw [bsize]
    exact meets.search [] nul (BUFSIZE + 1) (by omega) (by omega)
  rw [ext2SearchDir, FsM.bind_of_ok FsM.get_run, count,
    h.searchBlocks_passes [] spare bsize nul k 0 (left + 1) fun j _ lt => before j (by omega), Nat.zero_add,
    h.searchBlocks_round spare block, search]
  exact if_pos pos

/-- One that has passed over all blocks returns -1. -/
theorem Coherent.ext2SearchDir_none (h : Coherent s) (spare : s.Spare) (bsize : s.sb.bsize = 1024#32) (nul : 0 ∉ c)
    (all : ∀ j < (s.itable dir).nblock, s.Passes (s.itable dir) c j) : ext2SearchDir dir (c ++ [0]) s = .ok (-1, s) := by
  have run := h.searchBlocks_passes [] spare bsize nul (s.itable dir).nblock 0 0 fun j _ lt => all j (by omega)
  rw [Nat.add_zero] at run
  rw [ext2SearchDir, FsM.bind_of_ok FsM.get_run, run]
  rfl

/-- A search that returns has passed over all blocks, or over those before one with a record of
the name that is in use. -/
theorem Coherent.ext2SearchDir_inv (h : Coherent s) (spare : s.Spare) (bsize : s.sb.bsize = 1024#32) (nul : 0 ∉ c) {r : Int} {t : Fs}
    (run : ext2SearchDir dir (c ++ [0]) s = .ok (r, t)) :
    ((∀ j < (s.itable dir).nblock, s.Passes (s.itable dir) c j) ∧ r = -1) ∨
    ∃ k < (s.itable dir).nblock, (∀ j < k, s.Passes (s.itable dir) c j) ∧
      ∃ blk e, s.fileBlock (s.itable dir) k = some blk ∧ blk.Meets c 0 (some e) ∧ 0 < e.inode.toInt ∧ r = e.inode.toInt := by
  by_cases all : ∀ j < (s.itable dir).nblock, s.Passes (s.itable dir) c j
  · rw [h.ext2SearchDir_none spare bsize nul all] at run
    cases run
    exact .inl ⟨all, rfl⟩
  · right
    push Not at all
    -- the first block that is not passed over
    obtain ⟨k, ⟨lt, stops⟩, least⟩ := WellFounded.has_min Nat.lt_wfRel.wf {k | k < (s.itable dir).nblock ∧ ¬ s.Passes (s.itable dir) c k} all
    have before : ∀ j < k, s.Passes (s.itable dir) c j := by
      intro j ltj
      by_contra other
      exact least j ⟨by omega, other⟩ ltj
    refine ⟨k, lt, before, ?_⟩
    obtain ⟨left, count⟩ : ∃ left, (s.itable dir).nblock = k + (left + 1) := ⟨(s.itable dir).nblock - k - 1, by omega⟩
    have whole : ext2SearchDir dir (c ++ [0]) s = searchBlocks dir (c ++ [0]) (left + 1) k s := by
      rw [ext2SearchDir, FsM.bind_of_ok FsM.get_run, count,
        h.searchBlocks_passes [] spare bsize nul k 0 (left + 1) fun j _ lt => before j (by omega), Nat.zero_add]
    rw [whole] at run
    cases block : s.fileBlock (s.itable dir) k with
    | none =>
      rw [h.searchBlocks_none spare block] at run
      cases run
    | some blk =>
      rw [h.searchBlocks_round spare block, bsize] at run
      cases search : searchDirentBlock (1024#32).toNat blk (c ++ [0]) with
      | error e =>
        rw [search] at run
        cases run
      | ok inum =>
        obtain ⟨d, meets⟩ := meets_of_search [] nul _ search
        have found : searchDirentBlock (1024#32).toNat blk (c ++ [0]) = .ok (metInum d) :=
          meets.search [] nul (BUFSIZE + 1) (by omega) (by omega)
        rw [found] at search run
        cases search
        dsimp only at run
        have pos : 0 < metInum d := by
          by_contra none
          exact stops ⟨blk, d, block, meets, by omega⟩
        rw [if_pos pos] at run
        cases run
        cases d with
        | none => cases pos
        | some e => exact ⟨blk, e, rfl, meets, pos, rfl⟩

/-- An entry in use is in a block of the directory. -/
theorem Fs.mem_liveEntries {x : Inode} {d : Dirent} : d ∈ s.liveEntries x ↔
    ∃ k < x.dirBlocks, ∃ blk ds, s.fileBlock x k = some blk ∧ blk.dirents = some ds ∧ d ∈ ds ∧ d.used = true := by
  unfold Fs.liveEntries Fs.blockEntries
  simp only [List.mem_flatMap, List.mem_range, List.mem_filter]
  refine exists_congr fun k => and_congr_right fun _ => ?_
  cases s.fileBlock x k with
  | none => simp
  | some blk => cases entries : blk.dirents <;> simp [entries]

/-- A record of the name with a positive number is in use. -/
theorem Block.Valid.live {blk : Block} {ds : List Dirent} (valid : blk.Valid ds) {d : Dirent} (mem : d ∈ ds) (same : cstr d.name = c)
    (pos : 0 < d.inode.toInt) : d.used = true ∧ d.name = c := by
  have used : d.used = true := by
    have ne : d.inode ≠ 0 := by
      intro zero
      rw [zero] at pos
      exact absurd pos (by decide)
    simpa [Dirent.used] using ne
  refine ⟨used, ?_⟩
  rw [← same, cstr_eq_self (valid.name d mem used)]

/-- No record of the name is out of use, or has a number that is not positive as an `int`. -/
def Fs.NoneUnused (s : Fs) (x : Inode) (c : List (BitVec 8)) : Prop :=
  ∀ k < x.dirBlocks, ∀ blk ds, s.fileBlock x k = some blk → blk.Valid ds → ∀ d ∈ ds, cstr d.name = c → 0 < d.inode.toInt

/-- Among valid blocks of a directory, the search passes over those without the name and finds it
in the others. -/
theorem Coherent.searchRight_of_valid (h : Coherent s) (spare : s.Spare) (bsize : s.sb.bsize = 1024#32) (nul : 0 ∉ c)
    (short : c.length < DIRENT_NAME_MAX) (valid : s.ValidDir (s.itable dir)) (direct : (s.itable dir).nblock ≤ 12)
    (clean : s.NoneUnused (s.itable dir) c) : SearchRight s dir c := by
  have count : (s.itable dir).dirBlocks = (s.itable dir).nblock := if_pos direct
  unfold Fs.ValidDir Fs.NoneUnused at *
  rw [count] at valid clean
  by_cases all : ∀ j < (s.itable dir).nblock, s.Passes (s.itable dir) c j
  · refine ⟨-1, s, h.ext2SearchDir_none spare bsize nul all, .inr ⟨fun d mem same => ?_, rfl⟩⟩
    obtain ⟨k, lt, blk, ds, block, entries, inside, used⟩ := s.mem_liveEntries.1 mem
    rw [count] at lt
    obtain ⟨blk', ds', block', valid'⟩ := valid k lt
    rw [block] at block'
    cases block'
    rw [valid'.entries] at entries
    cases entries
    obtain ⟨blk', d', block', meets, none⟩ := all k lt
    rw [block] at block'
    cases block'
    have own : cstr d.name = c := by rw [cstr_eq_self (valid'.name d inside used), same]
    obtain ⟨e, first⟩ : ∃ e, ds.find? (fun d => cstr d.name = c) = some e :=
      Option.isSome_iff_exists.1 (List.find?_isSome.2 ⟨d, inside, by simpa using own⟩)
    have pos := clean k lt blk ds block valid' e (List.mem_of_find?_eq_some first) (by simpa using List.find?_some first)
    -- what a search meets is what it returns
    have one := meets.search [] nul (BUFSIZE + 1) (by omega) (by omega)
    have other := valid'.chain.meets (c := c) short
    rw [first] at other
    rw [other.search [] nul (BUFSIZE + 1) (by omega) (by omega)] at one
    have found : metInum (some e) = metInum d' := Except.ok.inj one
    have number : metInum (some e) = e.inode.toInt := rfl
    omega
  · push Not at all
    obtain ⟨k, ⟨lt, stops⟩, least⟩ := WellFounded.has_min Nat.lt_wfRel.wf {k | k < (s.itable dir).nblock ∧ ¬ s.Passes (s.itable dir) c k} all
    have before : ∀ j < k, s.Passes (s.itable dir) c j := by
      intro j ltj
      by_contra other
      exact least j ⟨by omega, other⟩ ltj
    obtain ⟨blk, ds, block, valid'⟩ := valid k lt
    have meets := valid'.chain.meets (c := c) short
    cases first : ds.find? fun d => cstr d.name = c with
    | none =>
      rw [first] at meets
      exact absurd ⟨blk, none, block, meets, by decide⟩ stops
    | some e =>
      rw [first] at meets
      have mem := List.mem_of_find?_eq_some first
      have same : cstr e.name = c := by simpa using List.find?_some first
      have pos := clean k lt blk ds block valid' e mem same
      obtain ⟨used, name⟩ := valid'.live mem same pos
      refine ⟨_, s, h.ext2SearchDir_found spare bsize nul lt before block meets pos, .inl ⟨e, ?_, name, ?_⟩⟩
      · exact s.mem_liveEntries.2 ⟨k, by rw [count]; exact lt, blk, ds, block, valid'.entries, mem, used⟩
      · exact BitVec.toInt_eq_toNat_of_lt (BitVec.toInt_pos_iff.1 pos.le)

end Search

/-- **Searching a directory.** `ext2_search_dir` is right exactly when it passes over all blocks
that `i_blocks` makes and there is no entry in use of the name, or it passes over those before one
whose first record of the name is in use and has the number of an entry of that name. With direct
blocks only, a name shorter than the buffer and no record of the name out of use, it is. -/
theorem search_dir_right_iff {s : Fs} {dir : InodeId} {c : List (BitVec 8)} (h : Coherent s) (spare : s.Spare)
    (bsize : s.sb.bsize = 1024#32) (nul : 0 ∉ c) :
    (SearchRight s dir c ↔
      ((∀ j < (s.itable dir).nblock, s.Passes (s.itable dir) c j) ∧ ∀ d ∈ s.liveEntries (s.itable dir), d.name ≠ c) ∨
      ∃ k < (s.itable dir).nblock, (∀ j < k, s.Passes (s.itable dir) c j) ∧ ∃ blk e, s.fileBlock (s.itable dir) k = some blk ∧
        blk.Meets c 0 (some e) ∧ 0 < e.inode.toInt ∧ ∃ d ∈ s.liveEntries (s.itable dir), d.name = c ∧ d.inode = e.inode) ∧
    (s.ValidDir (s.itable dir) → (s.itable dir).nblock ≤ 12 → c.length < DIRENT_NAME_MAX → s.NoneUnused (s.itable dir) c →
      SearchRight s dir c) := by
  refine ⟨⟨?_, ?_⟩, fun valid direct short clean => h.searchRight_of_valid spare bsize nul short valid direct clean⟩
  · rintro ⟨r, t, run, right⟩
    rcases h.ext2SearchDir_inv spare bsize nul run with ⟨all, rfl⟩ | ⟨k, lt, before, blk, e, block, meets, pos, rfl⟩
    · left
      rcases right with ⟨d, -, -, number⟩ | ⟨none, -⟩
      · omega
      · exact ⟨all, none⟩
    · refine .inr ⟨k, lt, before, blk, e, block, meets, pos, ?_⟩
      rcases right with ⟨d, mem, same, number⟩ | ⟨-, number⟩
      · have whole := BitVec.toInt_eq_toNat_of_lt (BitVec.toInt_pos_iff.1 pos.le)
        refine ⟨d, mem, same, BitVec.eq_of_toNat_eq ?_⟩
        omega
      · omega
  · rintro (⟨all, none⟩ | ⟨k, lt, before, blk, e, block, meets, pos, d, mem, same, number⟩)
    · exact ⟨-1, s, h.ext2SearchDir_none spare bsize nul all, .inr ⟨none, rfl⟩⟩
    · refine ⟨_, s, h.ext2SearchDir_found spare bsize nul lt before block meets pos, .inl ⟨d, mem, same, ?_⟩⟩
      rw [number]
      exact BitVec.toInt_eq_toNat_of_lt (BitVec.toInt_pos_iff.1 pos.le)

/-- The root directory of the small volume, searched for `f`. -/
theorem search_dir_right_iff_root : SearchRight treeFs 0 [102#8] := by
  have wf := treeFs_wellFormed
  have block : treeFs.fileBlock (treeFs.itable 0) 0 = some (treeVolume 20#32) := by
    have slot : (treeFs.itable 0).block 0 = 20#32 := by decide +kernel
    simp only [Fs.fileBlock, Nat.ofNat_pos, dif_pos]
    exact congrArg (fun a => some (treeFs.disk a)) slot
  have meets : (treeVolume 20#32).Meets [102#8] 0 (some ⟨3#32, [102#8]⟩) := by
    have dot : (treeVolume 20#32).Readable [102#8] 0 := by unfold Block.Readable; decide +kernel
    have f : (treeVolume 20#32).Readable [102#8] 12 := by unfold Block.Readable; decide +kernel
    exact .next dot (by decide +kernel) (by decide +kernel) (.entry f (by decide +kernel))
  exact (search_dir_right_iff wf.coherent wf.spare wf.records.bsize (by decide)).1.2 (.inr ⟨0, by decide +kernel,
    fun j lt => absurd lt j.not_lt_zero, _, _, block, meets, by decide, ⟨3#32, [102#8]⟩, by decide +kernel, rfl, rfl⟩)

/-- The block of the root directory with a record of `x` that is out of use, and one in use. -/
def unusedBlock : Block := fun i =>
  if (i : Nat) = 4 then 12#8 else if (i : Nat) = 6 then 1#8 else if (i : Nat) = 8 then 120#8
  else if (i : Nat) = 12 then 3#8 else if (i : Nat) = 16 then 0xf4#8 else if (i : Nat) = 17 then 3#8
  else if (i : Nat) = 18 then 1#8 else if (i : Nat) = 20 then 120#8 else 0#8

/-- It is a valid block, but the search for `x` stops at the record that is out of use, and
returns -1. -/
theorem search_dir_misses_entry : unusedBlock.Valid [⟨0#32, [120#8]⟩, ⟨3#32, [120#8]⟩] ∧
    ∃ s, Coherent s ∧ s.fileBlock (s.itable 0) 0 = some unusedBlock ∧ (s.itable 0).nblock = 1 ∧
      (ext2SearchDir 0 ([120#8] ++ [0]) s).toOption.map Prod.fst = some (-1) ∧ ¬ SearchRight s 0 [120#8] := by
  have chain : unusedBlock.Chain 0 [⟨0#32, [120#8]⟩, ⟨3#32, [120#8]⟩] :=
    .cons (p := 0) (by decide) (by decide) (.cons (p := 12) (by decide) (by decide) .nil)
  have run : (ext2SearchDir 0 ([120#8] ++ [0]) { treeFs with disk := Function.update treeFs.disk 20#32 unusedBlock }).toOption.map
      Prod.fst = some (-1) := by decide +kernel
  have live : Fs.liveEntries { treeFs with disk := Function.update treeFs.disk 20#32 unusedBlock } (treeFs.itable 0) =
      [⟨3#32, [120#8]⟩] := by decide +kernel
  refine ⟨⟨chain, by decide⟩, { treeFs with disk := Function.update treeFs.disk 20#32 unusedBlock }, ?_, ?_, by decide +kernel, run, ?_⟩
  · exact ⟨fun _ _ => rfl, fun _ used => absurd rfl used, fun _ used => absurd rfl used, fun _ _ used => absurd rfl used⟩
  · decide +kernel
  · rintro ⟨r, t, found, right⟩
    rw [found] at run
    cases run
    rw [show Fs.itable { treeFs with disk := Function.update treeFs.disk 20#32 unusedBlock } 0 = treeFs.itable 0 from rfl, live] at right
    rcases right with ⟨d, mem, -, number⟩ | ⟨none, -⟩
    · omega
    · exact none _ List.mem_cons_self rfl

end Aarch64Os.Kernel
