import Mathlib
import Aarch64Os.Base.PathGraph
import Aarch64Os.Kernel.Ext2.FileView

/-!
# Directories (`kernel/ext2.c`)

A directory block is a chain of `struct dirent`. `search_dirent_block` walks it by `rec_len`
and compares names with `strcmp`, through a buffer of `DIRENT_NAME_MAX` bytes. On a block that
is a chain of entries it finds the first entry of the name.
-/

namespace Aarch64Os.Kernel
set_option autoImplicit false
open Base

/-- `DIRENT_NAME_MAX`. -/
abbrev DIRENT_NAME_MAX : Nat := 255

instance : NeZero DIRENT_NAME_MAX := ⟨by decide⟩

/-- `strcmp`, on the memory the two pointers may read. -/
def strcmp : List (BitVec 8) → List (BitVec 8) → Except Fault Int
  | a :: s1, b :: s2 => if a ≠ 0 ∧ a = b then strcmp s1 s2 else .ok (a.toNat - b.toNat)
  | _, _ => .error .undefined

/-- `d->name_len` of the entry at `bpos`. -/
def direntNameLen (blk : Block) (bpos : Nat) : Nat := (byte blk (bpos + 6)).toNat

/-- `d->rec_len`. -/
def direntRecLen (blk : Block) (bpos : Nat) : Nat := (le16 blk (bpos + 4)).toNat

/-- `d->name`, cut to `d->name_len`. -/
def direntName (blk : Block) (bpos : Nat) : List (BitVec 8) := bytesAt blk (bpos + 8) (direntNameLen blk bpos)

/-- `buf` of `search_dirent_block`: cleared, then the name copied to its front. -/
def direntBuf (blk : Block) (bpos : Nat) : List (BitVec 8) :=
  direntName blk bpos ++ List.replicate (DIRENT_NAME_MAX - direntNameLen blk bpos) 0

/-- The loop of `search_dirent_block` from `bpos` on. An entry with `rec_len` 0 is visited
for ever; the others take at most `bsize` rounds. -/
def searchDirents (bsize : Nat) (blk : Block) (path : List (BitVec 8)) : Nat → Nat → Except Fault Int
  | 0, _ => .error .hang
  | left + 1, bpos =>
    if bpos < bsize then
      if bpos + 8 + direntNameLen blk bpos ≤ BUFSIZE then do
        let cmp ← strcmp (direntBuf blk bpos) path
        if cmp = 0 then pure (le32 blk bpos).toInt
        else searchDirents bsize blk path left (bpos + direntRecLen blk bpos)
      else .error .undefined
    else .ok (-1)

/-- `search_dirent_block`. -/
def searchDirentBlock (bsize : Nat) (blk : Block) (path : List (BitVec 8)) : Except Fault Int :=
  searchDirents bsize blk path (bsize + 1) 0

/-- The loop of `ext2_search_dir` from block `i` on; `left` blocks are to come. -/
def searchBlocks (dir : InodeId) (name : List (BitVec 8)) : Nat → Nat → FsM Int
  | 0, _ => pure (-1)
  | left + 1, i => do
    let s ← get
    let db ← ext2InodeBlock dir i
    let data ← bufData db
    let inum ← liftM (searchDirentBlock s.sb.bsize.toNat data name)
    bioFree db
    if inum > 0 then pure inum else searchBlocks dir name left (i + 1)

/-- `ext2_search_dir`. -/
def ext2SearchDir (dir : InodeId) (name : List (BitVec 8)) : FsM Int := do
  let s ← get
  searchBlocks dir name (s.itable dir).nblock 0

/-- An entry of a directory block. -/
structure Dirent where
  inode : BitVec 32
  name : List (BitVec 8)
  deriving DecidableEq

/-- The entries of a block from `bpos` on, if they are a chain to its end: each is as long as
its name needs and ends inside the block. -/
def dirents (blk : Block) : Nat → Nat → Option (List Dirent)
  | 0, _ => none
  | left + 1, bpos =>
    if bpos = BUFSIZE then some []
    else if 8 + direntNameLen blk bpos ≤ direntRecLen blk bpos ∧ bpos + direntRecLen blk bpos ≤ BUFSIZE then
      (dirents blk left (bpos + direntRecLen blk bpos)).map fun ds => ⟨le32 blk bpos, direntName blk bpos⟩ :: ds
    else none

/-- The entries of a whole block. -/
def Block.dirents (blk : Block) : Option (List Dirent) := Kernel.dirents blk (BUFSIZE + 1) 0

/-- An entry whose inode number is 0 is not in use. -/
def Dirent.used (d : Dirent) : Bool := d.inode ≠ 0

/-- A well-formed block: a chain of entries whose names have no NUL and whose inode numbers
fit an `int`; no entry out of use has the name of one in use. -/
structure Block.Directory (blk : Block) (ds : List Dirent) : Prop where
  chain : blk.dirents = some ds
  name : ∀ d ∈ ds, 0 ∉ d.name
  inode : ∀ d ∈ ds, d.inode.toNat < 2 ^ 31
  unused : ∀ d ∈ ds, ∀ e ∈ ds, d.used = false → e.used = true → d.name ≠ e.name

/-- `strcmp` on a name in a buffer with room behind it and on a string. -/
theorem strcmp_eq {name c : List (BitVec 8)} {k : Nat} (nul : 0 ∉ name) (nul' : 0 ∉ c) (room : c.length < name.length + k)
    (tail : List (BitVec 8)) : ∃ r, strcmp (name ++ List.replicate k 0) (c ++ 0 :: tail) = .ok r ∧ (r = 0 ↔ name = c) := by
  induction c generalizing name with
  | nil =>
    cases name with
    | nil =>
      obtain ⟨k, rfl⟩ : ∃ n, k = n + 1 := ⟨k - 1, by simp at room; omega⟩
      exact ⟨0, by simp [List.replicate_succ, strcmp], by simp⟩
    | cons a name =>
      have ne : a ≠ 0 := fun e => nul (by simp [e])
      refine ⟨a.toNat, by simp [strcmp], ?_⟩
      have pos : a.toNat ≠ 0 := fun e => ne (BitVec.eq_of_toNat_eq e)
      simp only [reduceCtorEq, iff_false]
      omega
  | cons b c ih =>
    have ne : b ≠ 0 := fun e => nul' (by simp [e])
    have pos : b.toNat ≠ 0 := fun e => ne (BitVec.eq_of_toNat_eq e)
    cases name with
    | nil =>
      obtain ⟨k, rfl⟩ : ∃ n, k = n + 1 := ⟨k - 1, by simp at room; omega⟩
      refine ⟨-b.toNat, by simp [List.replicate_succ, strcmp], ?_⟩
      simp only [reduceCtorEq, iff_false]
      omega
    | cons a name =>
      rw [List.mem_cons, not_or] at nul nul'
      by_cases same : a = b
      · subst same
        obtain ⟨r, run, zero⟩ := ih nul.2 nul'.2 (by simp only [List.length_cons] at room; omega)
        refine ⟨r, ?_, by simpa using zero⟩
        rw [List.cons_append, List.cons_append, strcmp, if_pos ⟨ne, rfl⟩]
        exact run
      · refine ⟨a.toNat - b.toNat, ?_, ?_⟩
        · rw [List.cons_append, List.cons_append, strcmp, if_neg fun h => same h.2]
        · have differ : a.toNat ≠ b.toNat := fun e => same (BitVec.eq_of_toNat_eq e)
          simp only [List.cons.injEq, same, false_and, iff_false]
          omega

theorem direntName_length (blk : Block) (bpos : Nat) : (direntName blk bpos).length = direntNameLen blk bpos := by
  simp [direntName, bytesAt]

/-- What the search finds among the entries still to come: the first one of the name. -/
def foundIn (ds : List Dirent) (c : List (BitVec 8)) : Int :=
  ((ds.find? fun d => d.name = c).map fun d => d.inode.toInt).getD (-1)

section Search
variable {blk : Block} {ds : List Dirent} {c : List (BitVec 8)} (tail : List (BitVec 8))

/-- The search on a chain of entries. -/
theorem searchDirents_eq (nul : 0 ∉ c) (short : c.length < DIRENT_NAME_MAX) (left : Nat) :
    ∀ bpos ds, dirents blk left bpos = some ds → (∀ d ∈ ds, 0 ∉ d.name) →
      searchDirents BUFSIZE blk (c ++ 0 :: tail) left bpos = .ok (foundIn ds c) := by
  induction left with
  | zero => intro bpos ds chain; simp [dirents] at chain
  | succ left ih =>
    intro bpos ds chain names
    rw [dirents] at chain
    rw [searchDirents]
    split at chain
    case isTrue ending =>
      obtain rfl := Option.some.inj chain
      rw [if_neg (by omega)]
      rfl
    case isFalse more =>
    split at chain
    case isFalse => simp at chain
    case isTrue inside =>
    obtain ⟨rest, behind, rfl⟩ := Option.map_eq_some_iff.1 chain
    have own : 0 ∉ direntName blk bpos := names _ List.mem_cons_self
    have room : c.length < (direntName blk bpos).length + (DIRENT_NAME_MAX - direntNameLen blk bpos) := by
      rw [direntName_length]
      omega
    obtain ⟨r, run, zero⟩ := strcmp_eq own nul room tail
    have compare : strcmp (direntBuf blk bpos) (c ++ 0 :: tail) = .ok r := run
    rw [if_pos (by omega), if_pos (by omega), compare]
    by_cases same : direntName blk bpos = c
    · rw [foundIn, List.find?_cons_of_pos (by simpa using same)]
      simp only [bind, Except.bind, if_pos (zero.2 same)]
      rfl
    · rw [foundIn, List.find?_cons_of_neg (by simpa using same)]
      simp only [bind, Except.bind, if_neg (same ∘ zero.1)]
      exact ih _ _ behind fun d mem => names d (List.mem_cons_of_mem _ mem)

/-- `search_dirent_block` on a well-formed block. -/
theorem Block.Directory.search (h : blk.Directory ds) (nul : 0 ∉ c) (short : c.length < DIRENT_NAME_MAX) :
    searchDirentBlock BUFSIZE blk (c ++ 0 :: tail) = .ok (foundIn ds c) :=
  searchDirents_eq tail nul short (BUFSIZE + 1) 0 ds h.chain h.name

/-- The number found is positive when an entry in use has the name. -/
theorem Block.Directory.found (h : blk.Directory ds) {d : Dirent}
    (first : (ds.filter Dirent.used).find? (fun d => d.name = c) = some d) :
    foundIn ds c = d.inode.toNat ∧ 0 < d.inode.toNat ∧ d ∈ ds := by
  rw [List.find?_filter, List.find?_eq_some_iff_append] at first
  obtain ⟨hit, front, rest, split, before⟩ := first
  obtain ⟨used, name⟩ : d.used = true ∧ d.name = c := by simpa using hit
  have mem : d ∈ ds := by rw [split]; simp
  have found : ds.find? (fun d => d.name = c) = some d := by
    rw [List.find?_eq_some_iff_append]
    refine ⟨by simpa using name, front, rest, split, fun e he => ?_⟩
    -- an entry of that name before it would be one out of use
    have other : e.used = false ∨ e.name ≠ c := by simpa using before e he
    simp only [Bool.not_eq_true', decide_eq_false_iff_not]
    intro same
    have out : e.used = false := other.resolve_right (not_not.2 same)
    exact h.unused e (by rw [split]; simp [he]) d mem out used (same.trans name.symm)
  have pos : d.inode.toNat ≠ 0 := fun e => by
    have zero : d.inode = 0 := BitVec.eq_of_toNat_eq e
    simp [Dirent.used, zero] at used
  refine ⟨?_, by omega, mem⟩
  rw [foundIn, found]
  exact BitVec.toInt_eq_toNat_of_lt (by have := h.inode d mem; omega)

/-- It is not when there is none. -/
theorem Block.Directory.missing (none : (ds.filter Dirent.used).find? (fun d => d.name = c) = none) :
    foundIn ds c ≤ 0 := by
  unfold foundIn
  cases first : ds.find? fun d => d.name = c with
  | none => simp
  | some d =>
    have name : d.name = c := by simpa using List.find?_some first
    have out := List.find?_eq_none.1 (List.find?_filter (p := Dirent.used) ▸ none) d (List.mem_of_find?_eq_some first)
    have zero : d.inode = 0 := by simpa [name, Dirent.used] using out
    simp [zero]

end Search

/-- Logical block `k` of an inode. -/
def Fs.fileBlock (s : Fs) (x : Inode) (k : Nat) : Option Block :=
  if h : k < 12 then some (s.disk (x.block ⟨k, direct_slot h⟩))
  else if 4 * (k - 12) + 4 ≤ BUFSIZE then some (s.disk (le32 (s.disk (x.block 12)) (4 * (k - 12)))) else none

/-- The entries in use in logical block `k`. -/
def Fs.blockEntries (s : Fs) (x : Inode) (k : Nat) : List Dirent :=
  (((s.fileBlock x k).bind Block.dirents).getD []).filter Dirent.used

/-- The entries of a directory. -/
def Fs.entries (s : Fs) (x : Inode) : List Dirent := (List.range x.nblock).flatMap (s.blockEntries x)

/-- Every block of the directory is well formed. -/
def Fs.IsDirectory (s : Fs) (x : Inode) : Prop :=
  ∀ k < x.nblock, ∃ blk ds, s.fileBlock x k = some blk ∧ blk.Directory ds

theorem Fs.fileBlock_eq (s : Fs) (ino : InodeId) (k : Nat) :
    s.fileBlock (s.itable ino) k = (s.bmap ino k).map s.disk := by
  unfold Fs.fileBlock Fs.bmap
  split
  · rfl
  · split <;> rfl

/-- What a search finds in a list of entries in use. -/
def inumOf (ds : List Dirent) (c : List (BitVec 8)) : Int :=
  ((ds.find? fun d => d.name = c).map fun d => (d.inode.toNat : Int)).getD (-1)

section SearchDir
variable {s : Fs} {dir : InodeId} {c : List (BitVec 8)} (tail : List (BitVec 8))

/-- The loop over the blocks of a directory. -/
theorem Coherent.searchBlocks_eq (h : Coherent s) (spare : s.Spare) (bsize : s.sb.bsize = 1024#32)
    (wf : s.IsDirectory (s.itable dir)) (nul : 0 ∉ c) (short : c.length < DIRENT_NAME_MAX) (left : Nat) :
    ∀ i, i + left = (s.itable dir).nblock → searchBlocks dir (c ++ 0 :: tail) left i s =
      .ok (inumOf ((List.range' i left).flatMap (s.blockEntries (s.itable dir))) c, s) := by
  induction left with
  | zero => intro i _; rfl
  | succ left ih =>
    intro i total
    obtain ⟨blk, ds, block, wfBlock⟩ := wf i (by omega)
    rw [Fs.fileBlock_eq] at block
    obtain ⟨a, mapped, rfl⟩ := Option.map_eq_some_iff.1 block
    obtain ⟨b, slot, read⟩ := h.inodeBlock_ok spare mapped
    have here : s.blockEntries (s.itable dir) i = ds.filter Dirent.used := by
      simp [Fs.blockEntries, Fs.fileBlock_eq, mapped, wfBlock.chain]
    have search : (liftM (searchDirentBlock s.sb.bsize.toNat (s.disk a) (c ++ 0 :: tail)) : FsM Int) (s.hold b a (s.disk a)) =
        .ok (foundIn ds c, s.hold b a (s.disk a)) := by
      apply FsM.lift_ok
      rw [bsize]
      exact wfBlock.search tail nul short
    rw [searchBlocks, FsM.bind_of_ok FsM.get_run, FsM.bind_of_ok read, FsM.bind_of_ok (Coherent.bufData_hold ..),
      FsM.bind_of_ok search, FsM.bind_of_ok (h.free_hold slot), List.range'_succ, List.flatMap_cons, here]
    cases first : (ds.filter Dirent.used).find? fun d => d.name = c with
    | some d =>
      obtain ⟨found, pos, -⟩ := wfBlock.found first
      rw [if_pos (by rw [found]; omega), found]
      simp [inumOf, List.find?_append, first]
    | none =>
      have missing := Block.Directory.missing first
      rw [if_neg (by omega), ih (i + 1) (by omega)]
      simp [inumOf, List.find?_append, first]

/-- **`ext2_search_dir`** finds the inode number of the entry in use of that name, and
changes nothing. -/
theorem Coherent.ext2SearchDir_eq (h : Coherent s) (spare : s.Spare) (bsize : s.sb.bsize = 1024#32)
    (wf : s.IsDirectory (s.itable dir)) (nul : 0 ∉ c) (short : c.length < DIRENT_NAME_MAX) :
    ext2SearchDir dir (c ++ 0 :: tail) s = .ok (inumOf (s.entries (s.itable dir)) c, s) := by
  rw [ext2SearchDir, FsM.bind_of_ok FsM.get_run, h.searchBlocks_eq tail spare bsize wf nul short _ 0 (by omega), Fs.entries,
    List.range_eq_range']

end SearchDir

end Aarch64Os.Kernel
