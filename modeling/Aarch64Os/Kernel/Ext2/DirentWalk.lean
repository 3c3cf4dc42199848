import Mathlib
import Aarch64Os.Kernel.Ext2.Effects

/-!
# Walking a directory block (`kernel/ext2.c`)

`search_dirent_block` and `ext2_dirlink` step through a block by the lengths they read there.
What a search meets on any block, and when both walks stay inside and come to an end.
-/

namespace Aarch64Os.Kernel
set_option autoImplicit false
open Base

/-- The string at the front of a name buffer. -/
def cstr (name : List (BitVec 8)) : List (BitVec 8) := name.takeWhile fun b => b ≠ 0

/-- Comparing such a name, which fills the buffer, with `c` runs past the buffer. -/
def Overruns (name c : List (BitVec 8)) : Prop := 0 ∉ name ∧ name.length = DIRENT_NAME_MAX ∧ name <+: c

instance (name c : List (BitVec 8)) : Decidable (Overruns name c) := inferInstanceAs (Decidable (_ ∧ _ ∧ _))

/-- The entry at `p` begins and ends its name inside the block, and can be compared with `c`. -/
def Block.Readable (blk : Block) (c : List (BitVec 8)) (p : Nat) : Prop :=
  p < BUFSIZE ∧ p + 8 + direntNameLen blk p ≤ BUFSIZE ∧ ¬ Overruns (direntName blk p) c

/-- The records from `p` on, up to the first of name `c`, or up to the end of the block: each can
be read, and those passed over have a length. -/
inductive Block.Meets (blk : Block) (c : List (BitVec 8)) : Nat → Option Dirent → Prop
  | ending {p : Nat} : BUFSIZE ≤ p → Meets blk c p none
  | entry {p : Nat} : blk.Readable c p → cstr (direntName blk p) = c → Meets blk c p (some ⟨le32 blk p, direntName blk p⟩)
  | next {p : Nat} {d : Option Dirent} : blk.Readable c p → cstr (direntName blk p) ≠ c → direntRecLen blk p ≠ 0 →
    Meets blk c (p + direntRecLen blk p) d → Meets blk c p d

/-- The records from `p` on come to one without a length, and none before it has the name. -/
inductive Block.Stuck (blk : Block) (c : List (BitVec 8)) : Nat → Prop
  | here {p : Nat} : blk.Readable c p → cstr (direntName blk p) ≠ c → direntRecLen blk p = 0 → Stuck blk c p
  | next {p : Nat} : blk.Readable c p → cstr (direntName blk p) ≠ c → Stuck blk c (p + direntRecLen blk p) → Stuck blk c p

/-- The records from `p` on, behind record `d`, up to one without a length, or up to the last: the
header of each is in the block. -/
inductive Block.Last (blk : Block) : Nat → Nat → Bool → Nat → Prop
  | ending {p d : Nat} : BUFSIZE ≤ p → Last blk p d false d
  | empty {p d : Nat} : p + 8 ≤ BUFSIZE → direntRecLen blk p = 0 → Last blk p d true p
  | next {p d l : Nat} {e : Bool} : p + 8 ≤ BUFSIZE → direntRecLen blk p ≠ 0 → Last blk (p + direntRecLen blk p) p e l →
    Last blk p d e l

/-- What a search returns for the record it has met. -/
def metInum (d : Option Dirent) : Int := d.elim (-1) fun d => d.inode.toInt

section Compare
variable {u c : List (BitVec 8)}

/-- `strcmp` on a string and on one behind which the memory goes on. -/
theorem strcmp_nul (nul : 0 ∉ u) (nul' : 0 ∉ c) (rest tail : List (BitVec 8)) :
    ∃ r, strcmp (u ++ 0 :: rest) (c ++ 0 :: tail) = .ok r ∧ (r = 0 ↔ u = c) := by
  induction c generalizing u with
  | nil =>
    cases u with
    | nil => exact ⟨0, by simp [strcmp], by simp⟩
    | cons a u =>
      have ne : a ≠ 0 := fun e => nul (by simp [e])
      have pos : a.toNat ≠ 0 := fun e => ne (BitVec.eq_of_toNat_eq e)
      refine ⟨a.toNat, by simp [strcmp], ?_⟩
      simp only [reduceCtorEq, iff_false]
      omega
  | cons b c ih =>
    have ne : b ≠ 0 := fun e => nul' (by simp [e])
    have pos : b.toNat ≠ 0 := fun e => ne (BitVec.eq_of_toNat_eq e)
    cases u with
    | nil =>
      refine ⟨-b.toNat, by simp [strcmp], ?_⟩
      simp only [reduceCtorEq, iff_false]
      omega
    | cons a u =>
      rw [List.mem_cons, not_or] at nul nul'
      rcases eq_or_ne a b with rfl | differ
      · obtain ⟨r, run, zero⟩ := ih nul.2 nul'.2
        refine ⟨r, ?_, by simpa using zero⟩
        rw [List.cons_append, List.cons_append, strcmp, if_pos ⟨ne, rfl⟩]
        exact run
      · refine ⟨a.toNat - b.toNat, ?_, ?_⟩
        · rw [List.cons_append, List.cons_append, strcmp, if_neg fun h => differ h.2]
        · have other : a.toNat ≠ b.toNat := fun e => differ (BitVec.eq_of_toNat_eq e)
          simp only [List.cons.injEq, differ, false_and, iff_false]
          omega

/-- `strcmp` on memory without a NUL: it runs past its end when all of it is the front of `c`. -/
theorem strcmp_full (nul : 0 ∉ u) (nul' : 0 ∉ c) (tail : List (BitVec 8)) :
    if u <+: c then strcmp u (c ++ 0 :: tail) = .error .undefined else ∃ r, strcmp u (c ++ 0 :: tail) = .ok r ∧ r ≠ 0 := by
  induction u generalizing c with
  | nil =>
    rw [if_pos (List.nil_prefix)]
    cases c <;> rfl
  | cons a u ih =>
    rw [List.mem_cons, not_or] at nul
    have pos : a.toNat ≠ 0 := fun e => nul.1 (BitVec.eq_of_toNat_eq e).symm
    cases c with
    | nil =>
      rw [if_neg (by simp)]
      refine ⟨a.toNat, by simp [strcmp], by omega⟩
    | cons b c =>
      rw [List.mem_cons, not_or] at nul'
      rcases eq_or_ne a b with rfl | differ
      · have same : strcmp (a :: u) (a :: c ++ 0 :: tail) = strcmp u (c ++ 0 :: tail) := by
          rw [List.cons_append, strcmp, if_pos ⟨Ne.symm nul.1, rfl⟩]
        simp only [List.prefix_cons_inj, same]
        exact ih nul.2 nul'.2
      · rw [if_neg (by simp [differ])]
        refine ⟨a.toNat - b.toNat, ?_, ?_⟩
        · rw [List.cons_append, strcmp, if_neg fun h => differ h.2]
        · have other : a.toNat ≠ b.toNat := fun e => differ (BitVec.eq_of_toNat_eq e)
          omega

theorem cstr_eq_self (nul : 0 ∉ u) : cstr u = u := by
  refine List.takeWhile_eq_self_iff.2 fun b mem => ?_
  simpa using fun e : b = 0 => nul (e ▸ mem)

theorem not_mem_cstr (u : List (BitVec 8)) : 0 ∉ cstr u := by
  intro mem
  simpa using List.mem_takeWhile_imp mem

end Compare

section Search
variable {blk : Block} {c : List (BitVec 8)} {p : Nat} (tail : List (BitVec 8))

/-- The comparison of `search_dirent_block`. -/
theorem strcmp_direntBuf (blk : Block) (p : Nat) (nul : 0 ∉ c) :
    if Overruns (direntName blk p) c then strcmp (direntBuf blk p) (c ++ 0 :: tail) = .error .undefined
    else ∃ r, strcmp (direntBuf blk p) (c ++ 0 :: tail) = .ok r ∧ (r = 0 ↔ cstr (direntName blk p) = c) := by
  have length := direntName_length blk p
  have most : direntNameLen blk p ≤ DIRENT_NAME_MAX := by
    have lt := (byte blk (p + 6)).isLt
    exact Nat.le_of_lt_succ lt
  unfold direntBuf
  generalize direntName blk p = name at *
  rw [← length] at most ⊢
  by_cases inside : (0 : BitVec 8) ∈ name
  · -- a NUL ends the name
    obtain ⟨rest, split⟩ : ∃ rest, name = cstr name ++ 0 :: rest := by
      have whole := List.takeWhile_append_dropWhile (p := fun b : BitVec 8 => b ≠ 0) (l := name)
      cases drop : name.dropWhile fun b => b ≠ 0 with
      | nil =>
        rw [drop, List.append_nil] at whole
        exact absurd inside (whole ▸ not_mem_cstr name)
      | cons b rest =>
        have stop := List.head?_dropWhile_not (fun b : BitVec 8 => b ≠ 0) name
        simp only [drop, List.head?_cons, decide_eq_false_iff_not, not_not] at stop
        rw [drop, stop] at whole
        exact ⟨rest, whole.symm⟩
    rw [if_neg fun runs => runs.1 inside]
    have run := strcmp_nul (not_mem_cstr name) nul (rest ++ List.replicate (DIRENT_NAME_MAX - name.length) 0) tail
    rwa [← List.cons_append, ← List.append_assoc, ← split] at run
  · rw [cstr_eq_self inside]
    rcases Nat.lt_or_ge name.length DIRENT_NAME_MAX with short | full
    · rw [if_neg fun runs => short.ne runs.2.1]
      obtain ⟨k, room⟩ : ∃ k, DIRENT_NAME_MAX - name.length = k + 1 := ⟨DIRENT_NAME_MAX - name.length - 1, by omega⟩
      rw [room, List.replicate_succ]
      exact strcmp_nul inside nul _ tail
    · have all : name.length = DIRENT_NAME_MAX := Nat.le_antisymm most full
      have runs : Overruns name c ↔ name <+: c := ⟨fun runs => runs.2.2, fun front => ⟨inside, all, front⟩⟩
      have run := strcmp_full inside nul tail
      rw [all, Nat.sub_self, List.replicate_zero, List.append_nil]
      by_cases front : name <+: c
      · rw [if_pos front] at run
        rwa [if_pos (runs.2 front)]
      · rw [if_neg front] at run
        rw [if_neg (mt runs.1 front)]
        obtain ⟨r, compare, ne⟩ := run
        refine ⟨r, compare, ?_⟩
        exact ⟨fun zero => absurd zero ne, fun same => absurd (same ▸ List.prefix_refl _) front⟩

/-- A round of the search at a record that can be read. -/
theorem searchDirents_readable (left : Nat) (nul : 0 ∉ c) (readable : blk.Readable c p) :
    searchDirents BUFSIZE blk (c ++ 0 :: tail) (left + 1) p =
      if cstr (direntName blk p) = c then .ok (le32 blk p).toInt
      else searchDirents BUFSIZE blk (c ++ 0 :: tail) left (p + direntRecLen blk p) := by
  obtain ⟨more, inside, fits⟩ := readable
  have compare := strcmp_direntBuf tail blk p nul
  rw [if_neg fits] at compare
  obtain ⟨r, run, zero⟩ := compare
  rw [searchDirents, if_pos more, if_pos inside, run]
  simp only [bind, Except.bind, zero]
  rfl

/-- Elsewhere it reads outside the block or the buffer. -/
theorem searchDirents_unreadable (left : Nat) (nul : 0 ∉ c) (more : p < BUFSIZE) (readable : ¬ blk.Readable c p) :
    searchDirents BUFSIZE blk (c ++ 0 :: tail) (left + 1) p = .error .undefined := by
  rw [searchDirents, if_pos more]
  split
  case isFalse => rfl
  case isTrue inside =>
    have runs : Overruns (direntName blk p) c := by
      by_contra fits
      exact readable ⟨more, inside, fits⟩
    have compare := strcmp_direntBuf tail blk p nul
    rw [if_pos runs] at compare
    rw [compare]
    rfl

/-- The search returns what it meets. -/
theorem Block.Meets.search {d : Option Dirent} (meets : blk.Meets c p d) (nul : 0 ∉ c) :
    ∀ left, 0 < left → BUFSIZE < p + left → searchDirents BUFSIZE blk (c ++ 0 :: tail) left p = .ok (metInum d) := by
  induction meets with
  | @ending p past =>
    intro left some enough
    cases left with
    | zero => omega
    | succ left =>
      rw [searchDirents, if_neg (by omega)]
      rfl
  | @entry p readable same =>
    intro left some enough
    have more := readable.1
    cases left with
    | zero => omega
    | succ left =>
      rw [searchDirents_readable tail left nul readable, if_pos same]
      rfl
  | @next p d readable other pos _ ih =>
    intro left some enough
    have more := readable.1
    cases left with
    | zero => omega
    | succ left =>
      rw [searchDirents_readable tail left nul readable, if_neg other]
      exact ih left (by omega) (by omega)

/-- A search that returns has met something. -/
theorem meets_of_search (nul : 0 ∉ c) (left : Nat) : ∀ {p : Nat} {r : Int},
    searchDirents BUFSIZE blk (c ++ 0 :: tail) left p = .ok r → ∃ d, blk.Meets c p d := by
  induction left with
  | zero =>
    intro p r run
    cases run
  | succ left ih =>
    intro p r run
    rcases Nat.lt_or_ge p BUFSIZE with more | past
    swap
    · exact ⟨none, .ending past⟩
    by_cases readable : blk.Readable c p
    swap
    · rw [searchDirents_unreadable tail left nul more readable] at run
      cases run
    by_cases same : cstr (direntName blk p) = c
    · exact ⟨_, .entry readable same⟩
    · rw [searchDirents_readable tail left nul readable, if_neg same] at run
      obtain ⟨d, meets⟩ := ih run
      rcases eq_or_ne (direntRecLen blk p) 0 with zero | pos
      · rw [zero, Nat.add_zero] at meets
        exact ⟨d, meets⟩
      · exact ⟨d, .next readable same pos meets⟩

/-- A record without a length is visited for ever. -/
theorem Block.Stuck.search (stuck : blk.Stuck c p) (nul : 0 ∉ c) :
    ∀ left, searchDirents BUFSIZE blk (c ++ 0 :: tail) left p = .error .hang := by
  induction stuck with
  | @here p readable other zero =>
    intro left
    induction left with
    | zero => rfl
    | succ left ih =>
      rw [searchDirents_readable tail left nul readable, if_neg other, zero]
      exact ih
  | next readable other _ ih =>
    intro left
    cases left with
    | zero => rfl
    | succ left =>
      rw [searchDirents_readable tail left nul readable, if_neg other]
      exact ih left

/-- `search_dirent_block` on any block. -/
theorem searchDirentBlock_iff (blk : Block) (nul : 0 ∉ c) :
    (∃ r, searchDirentBlock BUFSIZE blk (c ++ 0 :: tail) = .ok r) ↔ ∃ d, blk.Meets c 0 d := by
  constructor
  · rintro ⟨r, run⟩
    exact meets_of_search tail nul _ run
  · rintro ⟨d, meets⟩
    exact ⟨_, meets.search tail nul _ (by omega) (by omega)⟩

end Search

section Free
variable {blk : Block} {p d l : Nat} {e : Bool}

/-- The walk of `ext2_dirlink` finds the last record. -/
theorem Block.Last.walk (last : blk.Last p d e l) :
    ∀ left, 0 < left → BUFSIZE < p + left → lastDirent BUFSIZE blk left p d = .ok (e, l) := by
  induction last with
  | @ending p d past =>
    intro left some enough
    cases left with
    | zero => omega
    | succ left => rw [lastDirent, if_neg (by omega)]
  | @empty p d inside zero =>
    intro left some enough
    cases left with
    | zero => omega
    | succ left => rw [lastDirent, if_pos (by omega), if_pos inside, if_pos zero]
  | @next p d l e inside pos _ ih =>
    intro left some enough
    cases left with
    | zero => omega
    | succ left =>
      rw [lastDirent, if_pos (by omega), if_pos inside, if_neg pos]
      exact ih left (by omega) (by omega)

/-- A walk that returns has found it. -/
theorem last_of_walk (left : Nat) : ∀ {p d : Nat}, lastDirent BUFSIZE blk left p d = .ok (e, l) → blk.Last p d e l := by
  induction left with
  | zero =>
    intro p d run
    cases run
  | succ left ih =>
    intro p d run
    rw [lastDirent] at run
    split at run
    case isFalse past =>
      cases run
      exact .ending (by omega)
    case isTrue =>
    split at run
    case isFalse => cases run
    case isTrue inside =>
    split at run
    case isTrue zero =>
      cases run
      exact .empty inside zero
    case isFalse pos => exact .next inside pos (ih run)

/-- The string at `off` ends at its first NUL. -/
theorem strlenAt_ok {off n : Nat} :
    strlenAt blk off = .ok n ↔ off + n < BUFSIZE ∧ byte blk (off + n) = 0 ∧ ∀ k < n, byte blk (off + k) ≠ 0 := by
  have found : strlenAt blk off = .ok n ↔ (List.range (BUFSIZE - off)).find? (fun k => byte blk (off + k) = 0) = some n := by
    unfold strlenAt
    split
    case h_1 k first => rw [first, Except.ok.injEq, Option.some.injEq]
    case h_2 none => rw [none]; exact iff_of_false nofun nofun
  rw [found, List.find?_range_eq_some]
  simp only [decide_eq_true_eq, List.mem_range, Bool.not_eq_true', decide_eq_false_iff_not]
  constructor
  · rintro ⟨nul, lt, before⟩
    exact ⟨by omega, nul, before⟩
  · rintro ⟨lt, nul, before⟩
    exact ⟨nul, by omega, before⟩

/-- It ends in the block when there is a NUL in it. -/
theorem strlenAt_iff {off : Nat} : (∃ n, strlenAt blk off = .ok n) ↔ ∃ i, off ≤ i ∧ i < BUFSIZE ∧ byte blk i = 0 := by
  constructor
  · rintro ⟨n, run⟩
    obtain ⟨lt, nul, -⟩ := strlenAt_ok.1 run
    exact ⟨off + n, by omega, lt, nul⟩
  · rintro ⟨i, ge, lt, nul⟩
    have some : ∃ k, off + k < BUFSIZE ∧ byte blk (off + k) = 0 := ⟨i - off, by rwa [Nat.add_sub_of_le ge], by rwa [Nat.add_sub_of_le ge]⟩
    obtain ⟨inside, first⟩ := Nat.find_spec some
    refine ⟨Nat.find some, strlenAt_ok.2 ⟨inside, first, fun k before zero => ?_⟩⟩
    exact Nat.find_min some before ⟨by omega, zero⟩

end Free

/-- A search for `c` passes over logical block `k`: what it meets there is not in use. -/
def Fs.Passes (s : Fs) (x : Inode) (c : List (BitVec 8)) (k : Nat) : Prop :=
  ∃ blk d, s.fileBlock x k = some blk ∧ blk.Meets c 0 d ∧ metInum d ≤ 0

section Blocks
variable {s : Fs} {dir : InodeId} {c : List (BitVec 8)} (tail : List (BitVec 8))

/-- A round of the loop over the blocks of a directory. -/
theorem Coherent.searchBlocks_round (h : Coherent s) (spare : s.Spare) {i : Nat} {blk : Block}
    (block : s.fileBlock (s.itable dir) i = some blk) (name : List (BitVec 8)) (left : Nat) :
    searchBlocks dir name (left + 1) i s = match searchDirentBlock s.sb.bsize.toNat blk name with
      | .error e => .error e
      | .ok inum => if inum > 0 then .ok (inum, s) else searchBlocks dir name left (i + 1) s := by
  rw [Fs.fileBlock_eq] at block
  obtain ⟨a, mapped, rfl⟩ := Option.map_eq_some_iff.1 block
  obtain ⟨b, slot, read⟩ := h.inodeBlock_ok spare mapped
  rw [searchBlocks, FsM.bind_of_ok FsM.get_run, FsM.bind_of_ok read, FsM.bind_of_ok (Coherent.bufData_hold ..)]
  cases search : searchDirentBlock s.sb.bsize.toNat (s.disk a) name with
  | error e => rw [FsM.bind_run, FsM.lift_error rfl]; rfl
  | ok inum =>
    rw [FsM.bind_of_ok (FsM.lift_ok rfl), FsM.bind_of_ok (h.free_hold slot)]
    dsimp only
    split <;> rfl

/-- A block out of reach stops the kernel. -/
theorem Coherent.searchBlocks_none (h : Coherent s) (spare : s.Spare) {i : Nat} (none : s.fileBlock (s.itable dir) i = none)
    (name : List (BitVec 8)) (left : Nat) : searchBlocks dir name (left + 1) i s = .error .undefined := by
  rw [Fs.fileBlock_eq, Option.map_eq_none_iff] at none
  rw [searchBlocks, FsM.bind_of_ok FsM.get_run, FsM.bind_run, h.inodeBlock_none spare none]
  rfl

/-- The loop goes on behind blocks it passes over. -/
theorem Coherent.searchBlocks_passes (h : Coherent s) (spare : s.Spare) (bsize : s.sb.bsize = 1024#32) (nul : 0 ∉ c) (k : Nat) :
    ∀ i left, (∀ j, i ≤ j → j < i + k → s.Passes (s.itable dir) c j) →
      searchBlocks dir (c ++ 0 :: tail) (k + left) i s = searchBlocks dir (c ++ 0 :: tail) left (i + k) s := by
  induction k with
  | zero =>
    intro i left _
    rw [Nat.zero_add]
    rfl
  | succ k ih =>
    intro i left passes
    obtain ⟨blk, d, block, meets, none⟩ := passes i le_rfl (by omega)
    have search : searchDirentBlock s.sb.bsize.toNat blk (c ++ 0 :: tail) = .ok (metInum d) := by
      rw [bsize]
      exact meets.search tail nul (BUFSIZE + 1) (by omega) (by omega)
    rw [Nat.succ_add, h.searchBlocks_round spare block, search]
    dsimp only
    rw [if_neg (by omega), ih (i + 1) left fun j ge lt => passes j (by omega) (by omega)]
    congr 1
    omega

/-- The search of a directory comes to a record without a length, and does not return. -/
theorem Coherent.ext2SearchDir_stuck (h : Coherent s) (spare : s.Spare) (bsize : s.sb.bsize = 1024#32) (nul : 0 ∉ c) {k : Nat}
    (lt : k < (s.itable dir).nblock) (before : ∀ j < k, s.Passes (s.itable dir) c j) {blk : Block}
    (block : s.fileBlock (s.itable dir) k = some blk) (stuck : blk.Stuck c 0) :
    ext2SearchDir dir (c ++ 0 :: tail) s = .error .hang := by
  obtain ⟨left, count⟩ : ∃ left, (s.itable dir).nblock = k + (left + 1) := ⟨(s.itable dir).nblock - k - 1, by omega⟩
  have search : searchDirentBlock s.sb.bsize.toNat blk (c ++ 0 :: tail) = .error .hang := by
    rw [bsize]
    exact stuck.search tail nul _
  rw [ext2SearchDir, FsM.bind_of_ok FsM.get_run, count,
    h.searchBlocks_passes tail spare bsize nul k 0 (left + 1) fun j _ lt => before j (by omega), Nat.zero_add,
    h.searchBlocks_round spare block, search]

end Blocks

/-- The search for `c` and the free-space walk come to an end on the block, and read nothing
outside of it. -/
def WalksEnd (blk : Block) (c : List (BitVec 8)) : Prop :=
  (∃ r, searchDirentBlock BUFSIZE blk (c ++ [0]) = .ok r) ∧
  ∃ empty d, lastDirent BUFSIZE blk (BUFSIZE + 1) 0 0 = .ok (empty, d) ∧ (empty = false → ∃ n, strlenAt blk (d + 8) = .ok n)

/-- **Walks over any block.** Both walks end inside the block exactly when the records up to the
first of the name can be read and have a length, the headers of all are inside, and the name of
the last ends in the block. On a directory with a block where a record without a length comes
before one of the name, `ext2_dirlink` never comes to its case for empty blocks. -/
theorem walks_end_iff (blk : Block) (c : List (BitVec 8)) (nul : 0 ∉ c) :
    (WalksEnd blk c ↔ (∃ d, blk.Meets c 0 d) ∧
      ∃ e l, blk.Last 0 0 e l ∧ (e = false → ∃ i, l + 8 ≤ i ∧ i < BUFSIZE ∧ byte blk i = 0)) ∧
    ∀ (s : Fs) (pdir : InodeId) (de : NewDirent) (k : Nat), Coherent s → s.Spare → s.sb.bsize = 1024#32 → de.name = c →
      k < (s.itable pdir).nblock → (∀ j < k, s.Passes (s.itable pdir) c j) → s.fileBlock (s.itable pdir) k = some blk →
      blk.Stuck c 0 → ext2Dirlink pdir de s = .error .hang := by
  refine ⟨and_congr (searchDirentBlock_iff [] blk nul) ⟨?_, ?_⟩, ?_⟩
  · rintro ⟨e, l, walk, room⟩
    exact ⟨e, l, last_of_walk _ walk, fun full => strlenAt_iff.1 (room full)⟩
  · rintro ⟨e, l, last, room⟩
    exact ⟨e, l, last.walk _ (by omega) (by omega), fun full => strlenAt_iff.2 (room full)⟩
  · rintro s pdir de k h spare bsize rfl lt before block stuck
    rw [ext2Dirlink, FsM.bind_run, h.ext2SearchDir_stuck [] spare bsize nul lt before block stuck]
    rfl

/-- The block of the root directory in the small volume, searched for `x`. -/
theorem walks_end_iff_root : WalksEnd (treeVolume 20#32) [120#8] := by
  refine (walks_end_iff (treeVolume 20#32) [120#8] (by decide)).1.2 ⟨⟨none, ?_⟩, false, 12, ?_, fun _ => ⟨21, by decide⟩⟩
  · have dot : (treeVolume 20#32).Readable [120#8] 0 := by unfold Block.Readable; decide +kernel
    have f : (treeVolume 20#32).Readable [120#8] 12 := by unfold Block.Readable; decide +kernel
    exact .next dot (by decide +kernel) (by decide +kernel) (.next f (by decide +kernel) (by decide +kernel) (.ending (by decide +kernel)))
  · exact .next (by decide) (by decide +kernel) (.next (by decide +kernel) (by decide +kernel) (.ending (by decide +kernel)))

/-- A block that has been cleared. -/
theorem zero_block_stuck {c : List (BitVec 8)} (some : c ≠ []) : Block.Stuck (fun _ => 0) c 0 := by
  have length : direntNameLen (fun _ => 0) 0 = 0 := by decide
  have name : direntName (fun _ => 0) 0 = [] := by rw [direntName, length]; rfl
  refine .here ⟨by decide, by rw [length]; decide, ?_⟩ ?_ (by decide)
  · rw [name]
    exact fun runs => absurd runs.2.1 (by decide)
  · rw [name]
    exact some.symm

/-- The search for `x` in a cleared block never ends, and neither does `ext2_dirlink` on a
directory with such a block. -/
theorem zero_block_hangs : ¬ WalksEnd (fun _ => 0) [120#8] ∧
    ∃ s, (s.itable 0).nblock = 1 ∧ s.fileBlock (s.itable 0) 0 = some (fun _ => 0) ∧
      ext2Dirlink 0 (makeDirent 3#32 [120#8] 1#8) s = .error .hang := by
  have stuck : Block.Stuck (fun _ => 0) [120#8] 0 := zero_block_stuck (by decide)
  refine ⟨fun ends => ?_, treeFs.setInode 0 fun x => { x with block := fun _ => 40#32 }, by decide +kernel, ?_, ?_⟩
  · obtain ⟨r, run⟩ := ends.1
    rw [searchDirentBlock, stuck.search [] (by decide)] at run
    cases run
  · decide +kernel
  · have block : (treeFs.setInode 0 fun x => { x with block := fun _ => 40#32 }).fileBlock
        ((treeFs.setInode 0 fun x => { x with block := fun _ => 40#32 }).itable 0) 0 = some (fun _ => 0) := by decide +kernel
    have wf := treeFs_wellFormed
    rw [ext2Dirlink, FsM.bind_run]
    rw [show (makeDirent 3#32 [120#8] 1#8).name ++ [0] = [120#8] ++ 0 :: [] from rfl,
      (wf.coherent.setInode 0 _).ext2SearchDir_stuck [] wf.spare wf.records.bsize (by decide) (by decide +kernel)
        (fun j lt => absurd lt j.not_lt_zero) block stuck]
    rfl

end Aarch64Os.Kernel
