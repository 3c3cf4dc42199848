import Mathlib
import Aarch64Os.Kernel.Ext2.LinkDirent

/-!
# When linking into a directory is right (`kernel/ext2.c`)

`ext2_dirlink` searches the directory, and then holds one block after the other until it comes to
one with room behind what `strlen` takes for the last name. When the directory is one again after
the call, with the new entry.
-/

namespace Aarch64Os.Kernel
set_option autoImplicit false
open Base

/-- Hold the first `k` blocks of an inode. -/
def holdBlocks (ino : InodeId) : Nat → FsM Unit
  | 0 => pure ()
  | k + 1 => do
    holdBlocks ino k
    let _ ← ext2InodeBlock ino k
    pure ()

/-- A directory of valid blocks, in places of their own; without blocks, its first slot is empty. -/
structure Fs.Chains (s : Fs) (dir : InodeId) : Prop where
  valid : s.ValidDir (s.itable dir)
  distinct : ∀ j < (s.itable dir).nblock, ∀ k < (s.itable dir).nblock, s.bmap dir j = s.bmap dir k → j = k
  map : 12 < (s.itable dir).nblock → ∀ k < (s.itable dir).nblock, s.bmap dir k ≠ some ((s.itable dir).block 12)
  blank : (s.itable dir).nblock = 0 → (s.itable dir).block 0 = 0

/-- `ext2_dirlink` stays inside the blocks; where it returns 0, the blocks are valid and the new
entry is in use besides the old ones; where it returns -1, nothing has changed. -/
structure LinksRight (s : Fs) (dir : InodeId) (inum : BitVec 32) (c : List (BitVec 8)) (file_type : BitVec 8) : Prop where
  inside : ext2Dirlink dir (makeDirent inum c file_type) s ≠ .error .undefined
  linked : ∀ t, ext2Dirlink dir (makeDirent inum c file_type) s = .ok (0, t) →
    t.ValidDir (t.itable dir) ∧ (t.liveEntries (t.itable dir)).Perm (⟨inum, c⟩ :: s.liveEntries (s.itable dir))
  failed : ∀ t, ext2Dirlink dir (makeDirent inum c file_type) s = .ok (-1, t) → s.Quiet t

/-- Each block the search for `c` comes to can be searched, even if it takes for ever. -/
def Fs.Searchable (s : Fs) (dir : InodeId) (c : List (BitVec 8)) : Prop :=
  ∀ k < (s.itable dir).nblock, (∀ j < k, s.Passes (s.itable dir) c j) →
    ∃ blk, s.fileBlock (s.itable dir) k = some blk ∧ ((∃ d, blk.Meets c 0 d) ∨ blk.Stuck c 0)

/-- Block `k` has no room for `de`. -/
def Fs.Full (s : Fs) (dir : InodeId) (de : NewDirent) (k : Nat) : Prop :=
  ∃ blk l n, s.fileBlock (s.itable dir) k = some blk ∧ blk.Last 0 0 false l ∧ strlenAt blk (l + 8) = .ok n ∧ ¬ de.Room l n

/-- The last name in block `k` ends inside the block, and if there is room behind it, the block is
one of the directory, and the new record fits. -/
def Fs.Linkable (s : Fs) (dir : InodeId) (de : NewDirent) (k : Nat) : Prop :=
  ∃ blk l n, s.fileBlock (s.itable dir) k = some blk ∧ blk.Last 0 0 false l ∧ strlenAt blk (l + 8) = .ok n ∧
    (de.Room l n → k < (s.itable dir).dirBlocks ∧ blk.Fits de l n)

section Search
variable {s : Fs} {dir : InodeId} {c : List (BitVec 8)}

/-- A search that fails has left the block, or come to a record without a length. -/
theorem stuck_of_search {blk : Block} (nul : 0 ∉ c) (left : Nat) : ∀ {p : Nat} {e : Fault}, 0 < left → BUFSIZE < p + left →
    searchDirents BUFSIZE blk (c ++ 0 :: []) left p = .error e → e ≠ .undefined → blk.Stuck c p := by
  induction left with
  | zero => exact fun {p e} some => absurd some (lt_irrefl 0)
  | succ left ih =>
    intro p e _ enough fails other
    rcases Nat.lt_or_ge p BUFSIZE with more | past
    swap
    · rw [searchDirents, if_neg (by omega)] at fails
      cases fails
    by_cases readable : blk.Readable c p
    swap
    · rw [searchDirents_unreadable [] left nul more readable] at fails
      cases fails
      exact absurd rfl other
    rw [searchDirents_readable [] left nul readable] at fails
    split at fails
    case isTrue => cases fails
    case isFalse differ =>
    rcases eq_or_ne (direntRecLen blk p) 0 with zero | pos
    · exact .here readable differ zero
    · exact .next readable differ (ih (by omega) (by omega) fails other)

/-- Blocks that can be searched are not left. -/
theorem Coherent.searchBlocks_inside (h : Coherent s) (spare : s.Spare) (bsize : s.sb.bsize = 1024#32) (nul : 0 ∉ c)
    (each : s.Searchable dir c) (left : Nat) : ∀ i, i + left = (s.itable dir).nblock → (∀ j < i, s.Passes (s.itable dir) c j) →
      searchBlocks dir (c ++ 0 :: []) left i s ≠ .error .undefined := by
  induction left with
  | zero => exact fun i _ _ => nofun
  | succ left ih =>
    intro i total before
    obtain ⟨blk, block, meets | stuck⟩ := each i (by omega) before
    · obtain ⟨d, meets⟩ := meets
      have search : searchDirentBlock s.sb.bsize.toNat blk (c ++ 0 :: []) = .ok (metInum d) := by
        rw [bsize]
        exact meets.search [] nul (BUFSIZE + 1) (by omega) (by omega)
      rw [h.searchBlocks_round spare block, search]
      dsimp only
      split
      case isTrue => nofun
      case isFalse none =>
        refine ih (i + 1) (by omega) fun j lt => ?_
        rcases Nat.lt_succ_iff_lt_or_eq.1 lt with lt | rfl
        · exact before j lt
        · exact ⟨blk, d, block, meets, by omega⟩
    · have search : searchDirentBlock s.sb.bsize.toNat blk (c ++ 0 :: []) = .error .hang := by
        rw [bsize]
        exact stuck.search [] nul _
      rw [h.searchBlocks_round spare block, search]
      nofun

/-- A search that never leaves a block could search each it came to. -/
theorem Coherent.searchable_of_inside (h : Coherent s) (spare : s.Spare) (bsize : s.sb.bsize = 1024#32) (nul : 0 ∉ c)
    (inside : ext2SearchDir dir (c ++ [0]) s ≠ .error .undefined) : s.Searchable dir c := by
  intro k lt before
  obtain ⟨left, count⟩ : ∃ left, (s.itable dir).nblock = k + (left + 1) := ⟨(s.itable dir).nblock - k - 1, by omega⟩
  have whole : ext2SearchDir dir (c ++ [0]) s = searchBlocks dir (c ++ [0]) (left + 1) k s := by
    rw [ext2SearchDir, FsM.bind_of_ok FsM.get_run, count,
      h.searchBlocks_passes [] spare bsize nul k 0 (left + 1) fun j _ lt => before j (by omega), Nat.zero_add]
  rw [whole] at inside
  cases block : s.fileBlock (s.itable dir) k with
  | none => exact absurd (h.searchBlocks_none spare block _ _) inside
  | some blk =>
    refine ⟨blk, rfl, ?_⟩
    rw [h.searchBlocks_round spare block, bsize] at inside
    cases search : searchDirentBlock (1024#32).toNat blk (c ++ [0]) with
    | ok inum => exact .inl (meets_of_search [] nul _ search)
    | error e =>
      rw [search] at inside
      refine .inr (stuck_of_search nul (BUFSIZE + 1) (by omega) (by omega) search fun same => inside ?_)
      rw [same]

end Search

section Hold
variable {s u v : Fs} {dir : InodeId} {b : BufId}

theorem Fs.bmap_quiet {t : Fs} (quiet : s.Quiet t) (k : Nat) : t.bmap dir k = s.bmap dir k := by
  unfold Fs.bmap
  rw [quiet.itable, quiet.disk]

/-- Holding blocks is quiet. -/
theorem Coherent.holdBlocks_ok (h : Coherent s) (k : Nat) : ∀ {u}, holdBlocks dir k s = .ok ((), u) → Coherent u ∧ s.Quiet u := by
  induction k with
  | zero =>
    intro u run
    cases run
    exact ⟨h, .refl s⟩
  | succ k ih =>
    intro u run
    obtain ⟨⟨⟩, w, first, rest⟩ := run_bind.1 run
    obtain ⟨b, w', read, last⟩ := run_bind.1 rest
    cases last
    obtain ⟨coherent, quiet⟩ := ih first
    obtain ⟨a, -, slot, rfl⟩ := coherent.inodeBlock_after dir k b _ read
    exact ⟨coherent.hold slot, quiet.trans ⟨rfl, rfl, rfl⟩⟩

theorem holdBlocks_succ {k : Nat} (first : holdBlocks dir k s = .ok ((), u)) (read : ext2InodeBlock dir k u = .ok (b, v)) :
    holdBlocks dir (k + 1) s = .ok ((), v) := by
  rw [holdBlocks, FsM.bind_of_ok first, FsM.bind_of_ok read]
  rfl

theorem bioRead_inside (s : Fs) (a : BitVec 32) : bioRead a s ≠ .error .undefined := by
  intro fails
  rcases fail_bind.1 fails with fails | ⟨b, u, -, fails⟩
  · unfold getBuf at fails
    split at fails <;> cases fails
  · rw [FsM.bind_of_ok FsM.get_run] at fails
    split at fails <;> cases fails

theorem bioFree_inside (s : Fs) (b : BufId) : bioFree b s ≠ .error .undefined := by
  intro fails
  unfold bioFree at fails
  split at fails <;> cases fails

/-- Reading a block of an inode that is mapped stays inside. -/
theorem Coherent.inodeBlock_inside (h : Coherent s) {k : Nat} {a : BitVec 32} (mapped : s.bmap dir k = some a) :
    ext2InodeBlock dir k s ≠ .error .undefined := by
  unfold Fs.bmap at mapped
  unfold ext2InodeBlock
  rw [FsM.bind_of_ok FsM.get_run]
  split
  case isTrue => exact bioRead_inside _ _
  case isFalse indirect =>
    rw [dif_neg indirect] at mapped
    split at mapped
    case isFalse => cases mapped
    case isTrue fits =>
    intro fails
    rcases fail_bind.1 fails with fails | ⟨map, u, read, fails⟩
    · exact bioRead_inside _ _ fails
    obtain ⟨slot, rfl⟩ := h.bioRead_inv read
    rw [FsM.bind_of_ok (Coherent.bufData_hold ..), readIndirectBlock, if_pos fits] at fails
    rcases fail_bind.1 fails with fails | ⟨b, v, -, fails⟩
    · exact bioRead_inside _ _ fails
    rcases fail_bind.1 fails with fails | ⟨_, w, -, fails⟩
    · exact bioFree_inside _ _ fails
    · cases fails

end Hold

section Round
variable {s u v : Fs} {dir : InodeId} {b : BufId} {de : NewDirent} {i l n : Nat}

/-- The room test of `ext2_dirlink`, behind a name that ends in the block. -/
theorem room_iff {blk : Block} (strlen : strlenAt blk (l + 8) = .ok n) :
    (BitVec.ofNat 64 BUFSIZE - BitVec.ofNat 64 (l + 8 + n)).toNat > de.rec_len.toNat ↔ de.Room l n := by
  have inside := (strlenAt_ok.1 strlen).1
  have size : BUFSIZE = 1024 := rfl
  have value : (BitVec.ofNat 64 BUFSIZE - BitVec.ofNat 64 (l + 8 + n)).toNat = BUFSIZE - (l + 8 + n) := by
    rw [BitVec.toNat_sub_of_le]
    · rw [BitVec.toNat_ofNat, BitVec.toNat_ofNat, Nat.mod_eq_of_lt (by omega), Nat.mod_eq_of_lt (by omega)]
    · rw [BitVec.le_def, BitVec.toNat_ofNat, BitVec.toNat_ofNat, Nat.mod_eq_of_lt (by omega), Nat.mod_eq_of_lt (by omega)]
      omega
  rw [value]
  rfl

/-- Take `data` as the answer of a round. -/
def answer (b : BufId) (data : Except Fault Block) : FsM (Option Int) := do
  let r ← writeBlock b data
  pure (some r)

/-- The free-space walk does not hang. -/
theorem lastDirent_total (blk : Block) (left : Nat) : ∀ {p d : Nat}, 0 < left → BUFSIZE < p + left →
    match lastDirent BUFSIZE blk left p d with
    | .error e => e = .undefined
    | .ok _ => True := by
  induction left with
  | zero => exact fun {p d} some => absurd some (lt_irrefl 0)
  | succ left ih =>
    intro p d _ enough
    rw [lastDirent]
    split_ifs with more inside zero
    · trivial
    · exact ih (by omega) (by omega)
    · rfl
    · trivial

theorem linkBlocks_empty (bsize : u.sb.bsize = 1024#32) (read : ext2InodeBlock dir i u = .ok (b, v))
    (last : (v.bcache b).data.Last 0 0 true l) (left : Nat) :
    linkBlocks dir de (left + 1) i u = answer b (linkEmpty BUFSIZE (v.bcache b).data l de) v := by
  have walk : lastDirent u.sb.bsize.toNat (v.bcache b).data (u.sb.bsize.toNat + 1) 0 0 = .ok (true, l) := by
    rw [bsize]
    exact last.walk (BUFSIZE + 1) (by omega) (by omega)
  rw [linkBlocks, FsM.bind_of_ok FsM.get_run, FsM.bind_of_ok read, FsM.bind_of_ok (bufData_runs v b),
    FsM.bind_of_ok (FsM.lift_ok walk), bsize]
  rfl

theorem linkBlocks_full (de : NewDirent) (bsize : u.sb.bsize = 1024#32) (read : ext2InodeBlock dir i u = .ok (b, v))
    (last : (v.bcache b).data.Last 0 0 false l) (strlen : strlenAt (v.bcache b).data (l + 8) = .ok n) (left : Nat) :
    (de.Room l n → linkBlocks dir de (left + 1) i u = answer b (linkBehind BUFSIZE (v.bcache b).data l n de) v) ∧
    (¬ de.Room l n → linkBlocks dir de (left + 1) i u = linkBlocks dir de left (i + 1) v) := by
  have walk : lastDirent u.sb.bsize.toNat (v.bcache b).data (u.sb.bsize.toNat + 1) 0 0 = .ok (false, l) := by
    rw [bsize]
    exact last.walk (BUFSIZE + 1) (by omega) (by omega)
  have whole : linkBlocks dir de (left + 1) i u = (if (BitVec.ofNat 64 BUFSIZE - BitVec.ofNat 64 (l + 8 + n)).toNat > de.rec_len.toNat
      then answer b (linkBehind BUFSIZE (v.bcache b).data l n de) else linkBlocks dir de left (i + 1)) v := by
    rw [linkBlocks, FsM.bind_of_ok FsM.get_run, FsM.bind_of_ok read, FsM.bind_of_ok (bufData_runs v b),
      FsM.bind_of_ok (FsM.lift_ok walk)]
    dsimp only
    rw [if_neg Bool.false_ne_true, FsM.bind_of_ok (FsM.lift_ok strlen), bsize]
    rfl
  exact ⟨fun room => by rw [whole, if_pos ((room_iff strlen).2 room)], fun full => by rw [whole, if_neg (mt (room_iff strlen).1 full)]⟩

/-- A walk that cannot be made, or a name that does not end. -/
theorem linkBlocks_outside (bsize : u.sb.bsize = 1024#32) (read : ext2InodeBlock dir i u = .ok (b, v))
    (lost : ∀ e l, (v.bcache b).data.Last 0 0 e l → e = false ∧ ∀ n, strlenAt (v.bcache b).data (l + 8) ≠ .ok n) (left : Nat) :
    linkBlocks dir de (left + 1) i u = .error .undefined := by
  have size : (1024#32).toNat = BUFSIZE := rfl
  rw [linkBlocks, FsM.bind_of_ok FsM.get_run, FsM.bind_of_ok read, FsM.bind_of_ok (bufData_runs v b), bsize, size]
  have walk := lastDirent_total (v.bcache b).data (BUFSIZE + 1) (p := 0) (d := 0) (by omega) (by omega)
  cases walked : lastDirent BUFSIZE (v.bcache b).data (BUFSIZE + 1) 0 0 with
  | error e =>
    rw [walked] at walk
    have same : e = .undefined := walk
    rw [same]
    rfl
  | ok p =>
    obtain ⟨e, l⟩ := p
    obtain ⟨rfl, endless⟩ := lost e l (last_of_walk _ walked)
    rw [FsM.bind_of_ok (FsM.lift_ok rfl)]
    dsimp only
    rw [if_neg Bool.false_ne_true]
    cases strlen : strlenAt (v.bcache b).data (l + 8) with
    | ok n => exact absurd strlen (endless n)
    | error e =>
      have same : e = .undefined := by
        unfold strlenAt at strlen
        split at strlen <;> cases strlen
        rfl
      rw [same]
      rfl

/-- The answer of a round, with the buffer that was read. -/
theorem Coherent.answer_hold (h : Coherent u) {a : BitVec 32} (slot : u.Slot b a) (data : Except Fault Block) :
    answer b data (u.hold b a (u.disk a)) = match data with
      | .error e => .error e
      | .ok blk => .ok (some 0, u.put b a blk) := by
  unfold answer writeBlock
  cases data with
  | error e => rfl
  | ok blk =>
    have put := h.put_run slot blk
    have whole : ((do setBufData b blk; bioWrite b; bioFree b : FsM Unit) >>= fun _ => (pure (some 0) : FsM (Option Int)))
        (u.hold b a (u.disk a)) = .ok (some 0, u.put b a blk) := by
      rw [FsM.bind_of_ok put]
      rfl
    simp only [bind_assoc] at whole
    dsimp only
    rw [← whole]
    simp only [bind_assoc, pure_bind]
    rfl

end Round

section Directory
variable {s t : Fs} {dir : InodeId} {c : List (BitVec 8)} {inum : BitVec 32} {file_type : BitVec 8} {k : Nat}

/-- The entry of a name below 255 bytes. -/
theorem makeDirent_short (inum : BitVec 32) (file_type : BitVec 8) (short : c.length < DIRENT_NAME_MAX) :
    (makeDirent inum c file_type).name_len.toNat = c.length ∧ (makeDirent inum c file_type).name = c ∧
      (makeDirent inum c file_type).rec_len.toNat = roundup4 (8 + c.length) ∧
      (List.range c.length).map (fun k => (makeDirent inum c file_type).name.getD k 0) = c := by
  have most : c.length < 256 := short.trans (by decide)
  have whole : (makeDirent inum c file_type).name = c := by
    show c.take (c.length % 256 + 1) = c
    exact List.take_of_length_le (by omega)
  obtain ⟨-, above, -⟩ := roundup4_spec (8 + c.length)
  refine ⟨?_, whole, ?_, ?_⟩
  · exact (BitVec.toNat_ofNat ..).trans (Nat.mod_eq_of_lt most)
  · exact (BitVec.toNat_ofNat ..).trans (Nat.mod_eq_of_lt (by omega))
  · rw [whole]
    refine List.ext_getElem (by simp) fun k lt lt' => ?_
    simp [List.getElem?_eq_getElem lt']

/-- One block of the disk has been written. -/
structure Fs.Wrote (s t : Fs) (a : BitVec 32) (blk : Block) : Prop where
  disk : t.disk = Function.update s.disk a blk
  itable : t.itable = s.itable

/-- The blocks of the directory then. -/
theorem Fs.Chains.fileBlock (chains : s.Chains dir) {a : BitVec 32} {blk : Block} (wrote : s.Wrote t a blk)
    (own : s.bmap dir k = some a) (lt : k < (s.itable dir).nblock) {j : Nat} (ltj : j < (s.itable dir).nblock) :
    t.fileBlock (t.itable dir) j = if j = k then some blk else s.fileBlock (s.itable dir) j := by
  have map : t.bmap dir j = s.bmap dir j := by
    unfold Fs.bmap
    rw [wrote.itable, wrote.disk]
    split
    case isTrue => rfl
    case isFalse indirect =>
      have apart := chains.map (by omega) k lt
      rw [own] at apart
      rw [Function.update_of_ne fun same => apart (congrArg some same.symm)]
  rw [Fs.fileBlock_eq, Fs.fileBlock_eq, map, wrote.disk]
  split
  case isTrue same => rw [same, own, Option.map_some, Function.update_self]
  case isFalse other =>
    cases mapped : s.bmap dir j with
    | none => rfl
    | some d =>
      have ne : d ≠ a := by
        rintro rfl
        exact other (chains.distinct j ltj k lt (mapped.trans own.symm))
      rw [Option.map_some, Option.map_some, Function.update_of_ne ne]

theorem Inode.dirBlocks_le (x : Inode) : x.dirBlocks ≤ x.nblock := by
  unfold Inode.dirBlocks
  split <;> omega

/-- One block with one more entry. -/
theorem Fs.liveEntries_cons {x : Inode} {d : Dirent} (lt : k < x.dirBlocks)
    (same : ∀ j < x.dirBlocks, j ≠ k → t.blockEntries x j = s.blockEntries x j)
    (more : t.blockEntries x k = s.blockEntries x k ++ [d]) : (t.liveEntries x).Perm (d :: s.liveEntries x) := by
  unfold Fs.liveEntries
  have mem : k ∈ List.range x.dirBlocks := List.mem_range.2 lt
  have order := List.perm_cons_erase mem
  have rest : ((List.range x.dirBlocks).erase k).flatMap (t.blockEntries x) = ((List.range x.dirBlocks).erase k).flatMap (s.blockEntries x) := by
    refine List.flatMap_congr fun j inside => ?_
    obtain ⟨ne, inside⟩ := List.nodup_range.mem_erase_iff.1 inside
    exact same j (List.mem_range.1 inside) ne
  have new : ((List.range x.dirBlocks).flatMap (t.blockEntries x)).Perm ((s.blockEntries x k ++ [d]) ++
      ((List.range x.dirBlocks).erase k).flatMap (s.blockEntries x)) := by
    refine (order.flatMap_right _).trans ?_
    rw [List.flatMap_cons, more, rest]
  have old : ((List.range x.dirBlocks).flatMap (s.blockEntries x)).Perm (s.blockEntries x k ++
      ((List.range x.dirBlocks).erase k).flatMap (s.blockEntries x)) := by
    refine (order.flatMap_right _).trans ?_
    rw [List.flatMap_cons]
  refine new.trans (List.Perm.trans ?_ (old.symm.cons d))
  rw [List.append_assoc]
  exact List.perm_middle

theorem Block.Valid.blockEntries {x : Inode} {blk : Block} {ds : List Dirent} (block : s.fileBlock x k = some blk)
    (valid : blk.Valid ds) : s.blockEntries x k = ds.filter Dirent.used := by
  unfold Fs.blockEntries
  rw [block, Option.bind_some, valid.entries]
  rfl

/-- A block with a new record that fits makes a directory with a new entry. -/
theorem Fs.Chains.linked (chains : s.Chains dir) (nul : 0 ∉ c) (short : c.length < DIRENT_NAME_MAX) (live : inum ≠ 0)
    {a : BitVec 32} {blk : Block} {l n : Nat} (real : k < (s.itable dir).dirBlocks) (own : s.bmap dir k = some a)
    (block : s.fileBlock (s.itable dir) k = some blk) (last : blk.Last 0 0 false l)
    (fits : blk.Fits (makeDirent inum c file_type) l n) (wrote : s.Wrote t a (blk.link l n (makeDirent inum c file_type))) :
    t.ValidDir (t.itable dir) ∧ (t.liveEntries (t.itable dir)).Perm (⟨inum, c⟩ :: s.liveEntries (s.itable dir)) := by
  obtain ⟨blk', ds, block', valid⟩ := chains.valid k real
  rw [block] at block'
  cases block'
  have most := (s.itable dir).dirBlocks_le
  obtain ⟨l', before, upto, final, rfl⟩ := valid.chain.split (by decide)
  obtain rfl : l = l' := by
    have one := last.walk (BUFSIZE + 1) (by omega) (by omega)
    have other := (upto.last final 0).walk (BUFSIZE + 1) (by omega) (by omega)
    rw [one] at other
    cases other
    rfl
  obtain ⟨count, -, -, name⟩ := makeDirent_short inum file_type short
  have chain := upto.link fits
  rw [count, name] at chain
  have valid' : (blk.link l n (makeDirent inum c file_type)).Valid (before ++ [⟨le32 blk l, direntName blk l⟩, ⟨inum, c⟩]) := by
    refine ⟨chain, fun d mem used => ?_⟩
    rw [List.append_cons, List.mem_append] at mem
    rcases mem with old | new
    · exact valid.name d old used
    · rw [List.mem_singleton.1 new]
      exact nul
  have blocks := fun {j} lt => chains.fileBlock (t := t) wrote own (real.trans_le most) (j := j) (lt_of_lt_of_le lt most)
  rw [wrote.itable] at blocks ⊢
  refine ⟨fun j lt => ?_, ?_⟩
  · rw [blocks lt]
    split
    · exact ⟨_, _, rfl, valid'⟩
    · exact chains.valid j lt
  · apply Fs.liveEntries_cons real
    · intro j lt ne
      unfold Fs.blockEntries
      rw [blocks lt, if_neg ne]
    · have here := blocks real
      rw [if_pos rfl] at here
      rw [valid'.blockEntries here, valid.blockEntries block, List.append_cons, List.filter_append]
      congr 1
      simpa [Dirent.used] using live

end Directory

section Blank
variable {s : Fs} {dir : InodeId} {b : BufId} {de : NewDirent}

/-- A search of the bitmap that stays in the block. -/
theorem scanChunk_total (data : Block) (left : Nat) : ∀ (i : Nat) (num : Int), i + left ≤ BUFSIZE →
    ∃ r, scanChunk data left i num = .ok r := by
  induction left with
  | zero => exact fun i num _ => ⟨none, rfl⟩
  | succ left ih =>
    intro i num fits
    rw [scanChunk, dif_pos (by omega)]
    split
    · exact ⟨_, rfl⟩
    · exact ih (i + 1) (num + 8) (by omega)

theorem Coherent.allocBlock_inside (h : Coherent s) (bsize : s.sb.bsize = 1024#32) : ext2AllocBlock s ≠ .error .undefined := by
  intro fails
  unfold ext2AllocBlock allocBit at fails
  rw [FsM.bind_of_ok FsM.get_run] at fails
  rcases fail_bind.1 fails with fails | ⟨b, u, read, fails⟩
  · exact bioRead_inside _ _ fails
  obtain ⟨slot, rfl⟩ := h.bioRead_inv read
  rw [FsM.bind_of_ok (Coherent.bufData_hold ..)] at fails
  obtain ⟨r, scan⟩ := scanChunk_total (s.disk s.sb.block_bitmap) s.sb.bsize.toNat 0 0 (by rw [bsize]; decide)
  obtain ⟨num, found⟩ : ∃ num, findFreeBlock s.sb.bsize (s.disk s.sb.block_bitmap) = .ok num := by
    rw [findFreeBlock, findFree, scan]
    exact ⟨_, rfl⟩
  rw [FsM.bind_of_ok (FsM.lift_ok found)] at fails
  rcases findFree_ok found with ⟨rfl, -⟩ | ⟨k, rfl, lt, byte, -, -⟩
  · cases fails
  · rw [if_neg (by omega), bbmpWriteBit, FsM.bind_of_ok (writeBit_hold lt byte)] at fails
    rcases fail_bind.1 fails with fails | ⟨_, v, -, fails⟩
    · exact bioFree_inside _ _ fails
    · cases fails

theorem inodeSync_inside (s : Fs) (ino : InodeId) (records : s.sb.Records) : inodeSync ino s ≠ .error .undefined := by
  obtain ⟨per, fits⟩ := records.fits (s.itable ino).inum
  have sizes : ¬ (s.sb.inode_size.toNat = 0 ∨ s.sb.perBlock = 0) := by
    have least := records.least
    exact fun none => none.elim (by omega) per
  intro fails
  unfold inodeSync at fails
  rw [FsM.bind_of_ok FsM.get_run] at fails
  rcases fail_bind.1 fails with fails | ⟨⟨b, off⟩, u, read, fails⟩
  · unfold ext2RawInode at fails
    rw [FsM.bind_of_ok FsM.get_run, if_neg sizes] at fails
    rcases fail_bind.1 fails with fails | ⟨b, u, -, fails⟩
    · exact bioRead_inside _ _ fails
    · cases fails
  have place : off = s.sb.recordOff (s.itable ino).inum := by
    unfold ext2RawInode at read
    rw [FsM.bind_of_ok FsM.get_run, if_neg sizes] at read
    obtain ⟨b', v, -, last⟩ := run_bind.1 read
    cases last
    rfl
  dsimp only at fails
  rw [FsM.bind_of_ok (bufData_runs u b), place, if_pos fits] at fails
  rcases fail_bind.1 fails with fails | ⟨_, v, -, fails⟩
  · cases fails
  rcases fail_bind.1 fails with fails | ⟨_, w, -, fails⟩
  · cases fails
  · exact bioFree_inside _ _ fails

/-- A block is written whole. -/
theorem writeBlock_ends (s : Fs) (b : BufId) (blk : Block) : Ends (· = .undefined) (writeBlock b (.ok blk)) s fun r t =>
    r = 0 ∧ t.disk = Function.update s.disk (s.bcache b).bno blk ∧ t.itable = s.itable := by
  unfold writeBlock
  refine Ends.step (FsM.lift_ok rfl) ?_
  refine Ends.step (FsM.modify_run _) ?_
  refine Ends.step (FsM.modify_run _) ?_
  refine Ends.bind ⟨quiet_bioFree _ b, fun e fails bad => bioFree_inside _ _ (bad ▸ fails)⟩ ?_
  intro _ t quiet
  apply Ends.pure
  refine ⟨rfl, ?_, quiet.itable⟩
  rw [quiet.disk]
  simp

/-- **The first block of a directory.** The new entry is the only one. -/
theorem Coherent.dirlink_blank (h : Coherent s) (records : s.sb.Records) (chains : s.Chains dir) {inum : BitVec 32}
    {c : List (BitVec 8)} {file_type : BitVec 8} (nul : 0 ∉ c) (short : c.length < DIRENT_NAME_MAX) (live : inum ≠ 0)
    (none : (s.itable dir).nblock = 0) : LinksRight s dir inum c file_type := by
  have bsize := records.bsize
  obtain ⟨count, whole, -, name⟩ := makeDirent_short inum file_type short
  have ends : Ends (· = .undefined) (ext2Dirlink dir (makeDirent inum c file_type)) s fun r t => r = 0 ∧ ∃ (a : BitVec 32) (blk : Block),
      t.disk a = blk.put 0 (makeDirent inum c file_type) 1024#16 ∧ t.itable dir = { s.itable dir with
        block := Function.update (s.itable dir).block 0 a, blocks := (s.itable dir).blocks + 2#32 } := by
    have search : ext2SearchDir dir ((makeDirent inum c file_type).name ++ [0]) s = .ok (-1, s) := by
      rw [ext2SearchDir, FsM.bind_of_ok FsM.get_run, none]
      rfl
    unfold ext2Dirlink
    refine Ends.step search ?_
    rw [if_neg (by omega)]
    refine Ends.step FsM.get_run ?_
    rw [none]
    refine Ends.step (show linkBlocks dir _ 0 0 s = .ok (Option.none, s) from rfl) ?_
    refine Ends.step FsM.get_run ?_
    rw [if_pos none]
    refine Ends.bind ⟨h.allocBit_after _ le_rfl, fun e fails bad => h.allocBlock_inside bsize (bad ▸ fails)⟩ ?_
    rintro bn t ⟨-, writes, same⟩
    have first : (t.itable dir).freeSlot = some 0 := by
      rw [same]
      exact List.find?_range_eq_some.2 ⟨decide_eq_true (chains.blank none), by simp, fun j lt => absurd lt j.not_lt_zero⟩
    have append : Ends (· = .undefined) (ext2AppendInodeBlock dir bn) t fun _ u => u.itable = (t.append dir 0 bn).itable := by
      refine ⟨?_, fun e fails bad => ?_⟩
      · refine (writes_append t dir bn).mono fun _ u appended => ?_
        rw [first] at appended
        exact appended.2
      · subst bad
        unfold ext2AppendInodeBlock at fails
        rw [FsM.bind_of_ok FsM.get_run, first] at fails
        dsimp only at fails
        rw [FsM.bind_of_ok (FsM.modify_run _)] at fails
        rcases fail_bind.1 fails with fails | ⟨_, u, -, fails⟩
        · refine inodeSync_inside _ _ ?_ fails
          show t.sb.Records
          rw [writes.sb]
          exact records
        · cases fails
    refine Ends.bind append ?_
    intro _ u table
    refine Ends.bind ⟨quiet_bioRead u _, fun e fails bad => bioRead_inside _ _ (bad ▸ fails)⟩ ?_
    rintro b v ⟨quiet, own⟩
    refine Ends.step (bufData_runs v b) ?_
    have fits : 0 + 8 + (makeDirent inum c file_type).name_len.toNat + 1 ≤ BUFSIZE := by
      have size : BUFSIZE = 1024 := rfl
      have most : DIRENT_NAME_MAX = 255 := rfl
      omega
    rw [linkEmpty, putDirent_eq, if_pos fits, bsize]
    refine Ends.mono (writeBlock_ends v b _) ?_
    rintro r w ⟨rfl, disk, itable⟩
    refine ⟨rfl, BitVec.ofInt 32 bn, (v.bcache b).data, ?_, ?_⟩
    · rw [disk, own, Function.update_self]
      rfl
    · rw [itable, quiet.itable, table, Fs.append, Fs.setInode_self, same, writes.sb, bsize]
      rfl
  refine ⟨fun fails => ends.2 _ fails rfl, fun t run => ?_, fun t run => ?_⟩
  · obtain ⟨-, a, blk, disk, inode⟩ := ends.1 _ _ run
    have size : BUFSIZE = 1024 := rfl
    have full : (1024#16).toNat = 1024 := rfl
    have one : (t.itable dir).dirBlocks = 1 := by
      have low : (s.itable dir).blocks.toNat / 2 = 0 := none
      have more : (t.itable dir).nblock = 1 := by
        rw [inode]
        show ((s.itable dir).blocks + 2#32).toNat / 2 = 1
        rw [BitVec.toNat_add]
        show ((s.itable dir).blocks.toNat + 2) % 2 ^ 32 / 2 = 1
        omega
      unfold Inode.dirBlocks
      rw [more]
      rfl
    have block : t.fileBlock (t.itable dir) 0 = some (blk.put 0 (makeDirent inum c file_type) 1024#16) := by
      rw [inode, ← disk]
      rfl
    have fits : 0 + 8 + (makeDirent inum c file_type).name_len.toNat + 1 ≤ BUFSIZE := by
      have most : DIRENT_NAME_MAX = 255 := rfl
      omega
    obtain ⟨inode', length', count', name'⟩ := Block.record_put blk 1024#16 fits
    rw [count, name] at name'
    have valid : (blk.put 0 (makeDirent inum c file_type) 1024#16).Valid [⟨inum, c⟩] := by
      refine ⟨?_, fun d mem _ => ?_⟩
      · have entry : (⟨inum, c⟩ : Dirent) = ⟨le32 (blk.put 0 (makeDirent inum c file_type) 1024#16) 0,
            direntName (blk.put 0 (makeDirent inum c file_type) 1024#16) 0⟩ := by rw [inode', name']; rfl
        rw [entry]
        refine .cons (by rw [length']; rfl) (by rw [length', count']; omega) ?_
        rw [length']
        exact .nil
      · rw [List.mem_singleton.1 mem]
        exact nul
    refine ⟨fun k lt => ?_, ?_⟩
    · obtain rfl : k = 0 := by omega
      exact ⟨_, _, block, valid⟩
    · have old : s.liveEntries (s.itable dir) = [] := by
        have zero : (s.itable dir).dirBlocks = 0 := Nat.le_zero.1 (none ▸ (s.itable dir).dirBlocks_le)
        rw [Fs.liveEntries, zero]
        rfl
      have new : t.liveEntries (t.itable dir) = [⟨inum, c⟩] := by
        rw [Fs.liveEntries, one, List.range_one, List.flatMap_singleton, valid.blockEntries block]
        simpa [Dirent.used] using live
      rw [old, new]
  · obtain ⟨zero, -⟩ := ends.1 _ _ run
    cases zero

end Blank

section Loop
variable {s u v : Fs} {dir : InodeId} {b : BufId} {de : NewDirent} {i : Nat}

/-- A block of `s` that is read after others have been held. -/
theorem Coherent.held_block (h : Coherent s) (before : holdBlocks dir i s = .ok ((), u)) (read : ext2InodeBlock dir i u = .ok (b, v)) :
    ∃ a, s.bmap dir i = some a ∧ u.Slot b a ∧ v = u.hold b a (u.disk a) ∧ s.fileBlock (s.itable dir) i = some (v.bcache b).data := by
  obtain ⟨coherent, quiet⟩ := h.holdBlocks_ok i before
  obtain ⟨a, mapped, slot, rfl⟩ := coherent.inodeBlock_after dir i b v read
  rw [Fs.bmap_quiet quiet] at mapped
  refine ⟨a, mapped, slot, rfl, ?_⟩
  rw [Fs.fileBlock_eq, mapped, Option.map_some, ← quiet.disk]
  simp [Fs.hold]

/-- The loop goes on behind blocks without room. -/
theorem Coherent.linkBlocks_behind (h : Coherent s) (bsize : s.sb.bsize = 1024#32) (left k : Nat) : ∀ {u},
    holdBlocks dir k s = .ok ((), u) → (∀ j < k, s.Full dir de j) → linkBlocks dir de (k + left) 0 s = linkBlocks dir de left k u := by
  induction k generalizing left with
  | zero =>
    intro u run _
    cases run
    rw [Nat.zero_add]
  | succ k ih =>
    intro u run full
    obtain ⟨⟨⟩, w, first, rest⟩ := run_bind.1 run
    obtain ⟨b, w', read, last⟩ := run_bind.1 rest
    cases last
    obtain ⟨a, -, -, -, block⟩ := h.held_block first read
    obtain ⟨blk, l, n, block', last, strlen, none⟩ := full k (Nat.lt_succ_self k)
    rw [block] at block'
    cases block'
    have size : w.sb.bsize = 1024#32 := by rw [(h.holdBlocks_ok k first).2.sb, bsize]
    rw [Nat.succ_add, ← Nat.add_succ, ih (left + 1) first fun j lt => full j (by omega)]
    exact (linkBlocks_full _ size read last strlen left).2 none

/-- Where blocks with room can be linked to, the loop links to one, or there is none. -/
theorem Coherent.linkBlocks_ends (h : Coherent s) (bsize : s.sb.bsize = 1024#32)
    (mapped : ∀ k < (s.itable dir).nblock, ∃ a, s.bmap dir k = some a)
    (each : ∀ k < (s.itable dir).nblock, (∀ j < k, s.Full dir de j) → (∃ u, holdBlocks dir (k + 1) s = .ok ((), u)) →
      s.Linkable dir de k) (left : Nat) : ∀ (i : Nat) (u : Fs), i + left = (s.itable dir).nblock →
    holdBlocks dir i s = .ok ((), u) → (∀ j < i, s.Full dir de j) →
    Ends (· = .undefined) (linkBlocks dir de left i) u fun r t => r = none ∨ r = some 0 ∧ ∃ k a blk l n, k < (s.itable dir).dirBlocks ∧
      s.bmap dir k = some a ∧ s.fileBlock (s.itable dir) k = some blk ∧ blk.Last 0 0 false l ∧ blk.Fits de l n ∧
      s.Wrote t a (blk.link l n de) := by
  induction left with
  | zero => exact fun i u _ _ _ => Ends.pure (.inl rfl)
  | succ left ih =>
    intro i u total before full
    obtain ⟨coherent, quiet⟩ := h.holdBlocks_ok i before
    have size : u.sb.bsize = 1024#32 := by rw [quiet.sb, bsize]
    cases read : ext2InodeBlock dir i u with
    | error e =>
      have other : e ≠ .undefined := by
        rintro rfl
        obtain ⟨a, here⟩ := mapped i (by omega)
        rw [← Fs.bmap_quiet quiet] at here
        exact coherent.inodeBlock_inside here read
      have fails : linkBlocks dir de (left + 1) i u = .error e := by
        rw [linkBlocks, FsM.bind_of_ok FsM.get_run, FsM.bind_run, read]
        rfl
      refine ⟨fun r t run => ?_, fun e' fails' => ?_⟩
      · rw [fails] at run
        cases run
      · rw [fails] at fails'
        cases fails'
        exact other
    | ok p =>
      obtain ⟨b, v⟩ := p
      have next := holdBlocks_succ before read
      obtain ⟨a, own, slot, held, block⟩ := h.held_block before read
      obtain ⟨blk, l, n, block', last, strlen, room⟩ := each i (by omega) full ⟨_, next⟩
      rw [block] at block'
      cases block'
      obtain ⟨taken, passed⟩ := linkBlocks_full de size read last strlen left
      by_cases more : de.Room l n
      · obtain ⟨real, fits⟩ := room more
        have run : linkBlocks dir de (left + 1) i u = .ok (some 0, u.put b a ((v.bcache b).data.link l n de)) := by
          rw [taken more, linkBehind_eq, if_pos fits.inside]
          exact (congrArg (answer b _) held).trans (coherent.answer_hold slot _)
        refine Ends.of_eq (h := fun _ => .ok (some 0, _)) (t := u) run ⟨?_, nofun⟩
        intro r t same
        cases same
        exact .inr ⟨rfl, i, a, _, l, n, real, own, block, last, fits, by rw [Fs.put_disk, quiet.disk], quiet.itable⟩
      · refine Ends.of_eq (passed more) (ih (i + 1) _ (by omega) next fun j lt => ?_)
        rcases Nat.lt_succ_iff_lt_or_eq.1 lt with lt | rfl
        · exact full j lt
        · exact ⟨_, l, n, block, last, strlen, more⟩

/-- What the call makes of the answer of a round it comes to. -/
theorem Coherent.dirlink_answer (h : Coherent s) (spare : s.Spare) (bsize : s.sb.bsize = 1024#32) {c : List (BitVec 8)}
    (whole : de.name = c) (nul : 0 ∉ c) (all : ∀ j < (s.itable dir).nblock, s.Passes (s.itable dir) c j) {k left : Nat}
    (total : k + (left + 1) = (s.itable dir).nblock) (before : holdBlocks dir k s = .ok ((), u)) (full : ∀ j < k, s.Full dir de j) :
    (linkBlocks dir de (left + 1) k u = .error .undefined → ext2Dirlink dir de s = .error .undefined) ∧
    ∀ {b v} data, ext2InodeBlock dir k u = .ok (b, v) → linkBlocks dir de (left + 1) k u = answer b data v →
      (∀ e, data = .error e → ext2Dirlink dir de s = .error e) ∧
      ∀ blk, data = .ok blk → ∃ a t, s.bmap dir k = some a ∧ ext2Dirlink dir de s = .ok (0, t) ∧ s.Wrote t a blk := by
  have search : ext2SearchDir dir (de.name ++ [0]) s = .ok (-1, s) := by
    rw [whole]
    exact h.ext2SearchDir_none spare bsize nul all
  have start : linkBlocks dir de (s.itable dir).nblock 0 s = linkBlocks dir de (left + 1) k u := by
    rw [← total]
    exact h.linkBlocks_behind bsize (left + 1) k before full
  obtain ⟨rest, lead, returns⟩ : ∃ rest, ext2Dirlink dir de s = ((linkBlocks dir de (s.itable dir).nblock 0) s).bind rest ∧
      ∀ r t, rest (some r, t) = .ok (r, t) := by
    rw [ext2Dirlink, FsM.bind_of_ok search, if_neg (by omega), FsM.bind_of_ok FsM.get_run]
    exact ⟨_, FsM.bind_run _ _, fun _ _ => rfl⟩
  rw [start] at lead
  refine ⟨fun fails => ?_, fun {b v} data read round => ?_⟩
  · rw [lead, fails]
    rfl
  obtain ⟨coherent, quiet⟩ := h.holdBlocks_ok k before
  obtain ⟨a, own, slot, rfl, -⟩ := h.held_block before read
  rw [round, coherent.answer_hold slot] at lead
  constructor
  · rintro e rfl
    exact lead
  · rintro blk rfl
    exact ⟨a, _, own, lead.trans (returns ..), by rw [Fs.put_disk, quiet.disk], quiet.itable⟩

end Loop

section Right
variable {s : Fs} {dir : InodeId} {inum : BitVec 32} {c : List (BitVec 8)} {file_type : BitVec 8}

/-- Where the call comes to a block, it can link to it. -/
def Fs.LinksWhereItCan (s : Fs) (dir : InodeId) (c : List (BitVec 8)) (de : NewDirent) : Prop :=
  (∀ j < (s.itable dir).nblock, s.Passes (s.itable dir) c j) → ∀ k < (s.itable dir).nblock, (∀ j < k, s.Full dir de j) →
    (∃ u, holdBlocks dir (k + 1) s = .ok ((), u)) → s.Linkable dir de k

theorem Coherent.linksRight (h : Coherent s) (spare : s.Spare) (records : s.sb.Records) (chains : s.Chains dir) (nul : 0 ∉ c)
    (short : c.length < DIRENT_NAME_MAX) (live : inum ≠ 0) (searchable : s.Searchable dir c)
    (can : s.LinksWhereItCan dir c (makeDirent inum c file_type)) : LinksRight s dir inum c file_type := by
  rcases Nat.eq_zero_or_pos (s.itable dir).nblock with none | some
  · exact h.dirlink_blank records chains nul short live none
  have bsize := records.bsize
  obtain ⟨-, whole, -, -⟩ := makeDirent_short inum file_type short
  have ends : Ends (· = .undefined) (ext2Dirlink dir (makeDirent inum c file_type)) s fun r t => r = 0 →
      t.ValidDir (t.itable dir) ∧ (t.liveEntries (t.itable dir)).Perm (⟨inum, c⟩ :: s.liveEntries (s.itable dir)) := by
    unfold ext2Dirlink
    have search : Ends (· = .undefined) (ext2SearchDir dir ((makeDirent inum c file_type).name ++ [0])) s fun r t =>
        t = s ∧ (r ≤ 0 → ∀ j < (s.itable dir).nblock, s.Passes (s.itable dir) c j) := by
      rw [whole]
      refine ⟨fun r t run => ⟨h.searchDir_after _ _ r t run, fun neg => ?_⟩, fun e fails bad => ?_⟩
      · rcases h.ext2SearchDir_inv spare bsize nul run with ⟨all, -⟩ | ⟨_, -, -, _, _, -, -, pos, rfl⟩
        · exact all
        · omega
      · subst bad
        rw [ext2SearchDir, FsM.bind_of_ok FsM.get_run] at fails
        exact h.searchBlocks_inside spare bsize nul searchable _ 0 (Nat.zero_add _) (fun j lt => absurd lt j.not_lt_zero) fails
    refine Ends.bind search ?_
    rintro found t ⟨same, passes⟩
    rw [same]
    split
    · apply Ends.pure
      intro zero
      cases zero
    have all := passes (by omega)
    refine Ends.step FsM.get_run ?_
    have mapped : ∀ k < (s.itable dir).nblock, ∃ a, s.bmap dir k = Option.some a := by
      intro k lt
      obtain ⟨blk, -, block, -⟩ := all k lt
      rw [Fs.fileBlock_eq] at block
      obtain ⟨a, own, -⟩ := Option.map_eq_some_iff.1 block
      exact ⟨a, own⟩
    have loop := h.linkBlocks_ends bsize mapped (can all) _ 0 s (Nat.zero_add _) rfl fun j lt => absurd lt j.not_lt_zero
    refine Ends.bind (loop.and_after (writes_linkBlocks dir _ _ s 0)) ?_
    rintro r u ⟨rfl | ⟨rfl, k, a, blk, l, n, real, own, block, last, fits, wrote⟩, quiet⟩
    · refine Ends.step FsM.get_run ?_
      rw [(quiet.1 rfl).itable, if_neg (by omega)]
      apply Ends.pure
      intro zero
      cases zero
    · exact Ends.pure fun _ => chains.linked nul short live real own block last fits wrote
  refine ⟨fun fails => ends.2 _ fails rfl, fun t run => ends.1 _ _ run rfl, fun t run => dirlink_fails s dir _ _ t run (by omega)⟩

/-- A call that is right could link to each block it comes to. -/
theorem Coherent.links_of_right (h : Coherent s) (spare : s.Spare) (bsize : s.sb.bsize = 1024#32) (chains : s.Chains dir) (nul : 0 ∉ c)
    (short : c.length < DIRENT_NAME_MAX) (right : LinksRight s dir inum c file_type) :
    s.LinksWhereItCan dir c (makeDirent inum c file_type) := by
  obtain ⟨-, whole, -, -⟩ := makeDirent_short inum file_type short
  rintro all k lt full ⟨v, held⟩
  obtain ⟨⟨⟩, u, before, rest⟩ := run_bind.1 held
  obtain ⟨b, w, read, last⟩ := run_bind.1 rest
  cases last
  obtain ⟨left, total⟩ : ∃ left, k + (left + 1) = (s.itable dir).nblock := ⟨(s.itable dir).nblock - k - 1, by omega⟩
  obtain ⟨outside, answers⟩ := h.dirlink_answer spare bsize whole nul all total before full
  obtain ⟨a, own, -, -, block⟩ := h.held_block before read
  have size : u.sb.bsize = 1024#32 := by rw [(h.holdBlocks_ok k before).2.sb, bsize]
  have most := (s.itable dir).dirBlocks_le
  -- what is written to the directory is a chain, and to one of its own blocks
  have written : ∀ data, linkBlocks dir (makeDirent inum c file_type) (left + 1) k u = answer b data v →
      data ≠ .error .undefined ∧ ∀ blk, data = .ok blk → k < (s.itable dir).dirBlocks ∧ ∃ ds, blk.Valid ds := by
    intro data round
    obtain ⟨fails, links⟩ := answers data read round
    refine ⟨?_, ?_⟩
    · intro stuck
      exact right.inside (fails _ stuck)
    · intro blk linked
      obtain ⟨a', t, own', run, wrote⟩ := links blk linked
      rw [own] at own'
      cases own'
      obtain ⟨valid, entries⟩ := right.linked t run
      have blocks := fun {j} ltj => chains.fileBlock wrote own lt (j := j) ltj
      rw [wrote.itable] at valid entries blocks
      rcases Nat.lt_or_ge k (s.itable dir).dirBlocks with real | extra
      · obtain ⟨blk', ds, here, valid⟩ := valid k real
        rw [blocks lt, if_pos rfl] at here
        cases here
        exact ⟨real, ds, valid⟩
      · have same : t.liveEntries (s.itable dir) = s.liveEntries (s.itable dir) := by
          refine List.flatMap_congr fun j inside => ?_
          have ltj := List.mem_range.1 inside
          unfold Fs.blockEntries
          rw [blocks (by omega), if_neg (by omega)]
        rw [same] at entries
        have count := entries.length_eq
        rw [List.length_cons] at count
        omega
  -- the blocks of the directory have a last record
  have real : k < (s.itable dir).dirBlocks → ∃ l before, (v.bcache b).data.Upto l 0 before ∧ (v.bcache b).data.Final l := by
    intro real
    obtain ⟨blk, ds, here, valid⟩ := chains.valid k real
    rw [block] at here
    cases here
    obtain ⟨l, before, upto, final, -⟩ := valid.chain.split (by decide)
    exact ⟨l, before, upto, final⟩
  by_cases lost : ∀ e l, (v.bcache b).data.Last 0 0 e l → e = false ∧ ∀ n, strlenAt (v.bcache b).data (l + 8) ≠ .ok n
  · exact absurd (outside (linkBlocks_outside size read lost left)) right.inside
  push Not at lost
  obtain ⟨e, l, last, found⟩ := lost
  cases e with
  | true =>
    obtain ⟨inside, into⟩ := written _ (linkBlocks_empty size read last left)
    rw [linkEmpty, putDirent_eq] at inside into
    split at inside
    case isFalse => exact absurd rfl inside
    case isTrue fits =>
    rw [if_pos fits] at into
    obtain ⟨l', before, upto, final⟩ := real (into _ rfl).1
    have one := last.walk (BUFSIZE + 1) (by omega) (by omega)
    rw [(upto.last final 0).walk (BUFSIZE + 1) (by omega) (by omega)] at one
    cases one
  | false =>
    obtain ⟨n, strlen⟩ := found rfl
    refine ⟨_, l, n, block, last, strlen, fun room => ?_⟩
    obtain ⟨inside, into⟩ := written _ ((linkBlocks_full _ size read last strlen left).1 room)
    rw [linkBehind_eq] at inside into
    split at inside
    case isFalse => exact absurd rfl inside
    case isTrue fits =>
    rw [if_pos fits] at into
    obtain ⟨own, ds, valid⟩ := into _ rfl
    refine ⟨own, fits, ?_⟩
    by_contra short
    obtain ⟨l', before, upto, final⟩ := real own
    have one := last.walk (BUFSIZE + 1) (by omega) (by omega)
    rw [(upto.last final 0).walk (BUFSIZE + 1) (by omega) (by omega)] at one
    cases one
    exact upto.link_fails fits (by omega) ds valid.chain

end Right

/-- A directory of one valid block. -/
theorem Fs.chains_one {s : Fs} {dir : InodeId} {blk : Block} {ds : List Dirent} (count : (s.itable dir).nblock = 1)
    (block : s.fileBlock (s.itable dir) 0 = some blk) (valid : blk.Valid ds) : s.Chains dir := by
  have one : (s.itable dir).dirBlocks = 1 := by rw [Inode.dirBlocks, count]; rfl
  refine ⟨fun k lt => ?_, fun j ltj k ltk _ => ?_, fun many => ?_, fun none => ?_⟩
  · obtain rfl : k = 0 := by omega
    exact ⟨_, _, block, valid⟩
  · omega
  · omega
  · omega

/-- **Linking into a directory.** In a directory of valid blocks, `ext2_dirlink` is right for a name
of 1 to 254 bytes exactly when the search for the name does not leave a block, and if it finds
nothing, in each block that the call comes to and has a buffer for, the last name as `strlen` takes
it ends inside the block, and where there is room behind it, the block is one of the directory, the
new record fits with the NUL of its name, and the record before it still holds its own. -/
theorem dirlink_right_iff {s : Fs} {dir : InodeId} {inum : BitVec 32} {c : List (BitVec 8)} {file_type : BitVec 8} (h : Coherent s)
    (spare : s.Spare) (records : s.sb.Records) (chains : s.Chains dir) (nul : 0 ∉ c) (short : c.length < DIRENT_NAME_MAX)
    (live : inum ≠ 0) : LinksRight s dir inum c file_type ↔
      s.Searchable dir c ∧ s.LinksWhereItCan dir c (makeDirent inum c file_type) := by
  constructor
  · intro right
    refine ⟨h.searchable_of_inside spare records.bsize nul fun fails => right.inside ?_,
      h.links_of_right spare records.bsize chains nul short right⟩
    obtain ⟨-, whole, -, -⟩ := makeDirent_short inum file_type short
    rw [ext2Dirlink, FsM.bind_run, whole, fails]
    rfl
  · rintro ⟨searchable, can⟩
    exact h.linksRight spare records chains nul short live searchable can

/-- The entry `x` in the root directory of the small volume. -/
theorem dirlink_right_iff_root : LinksRight treeFs 0 3#32 [120#8] 1#8 := by
  have wf := treeFs_wellFormed
  have count : (treeFs.itable 0).nblock = 1 := by decide +kernel
  have block : treeFs.fileBlock (treeFs.itable 0) 0 = some (treeVolume 20#32) := by
    have slot : (treeFs.itable 0).block 0 = 20#32 := by decide +kernel
    simp only [Fs.fileBlock, Nat.ofNat_pos, dif_pos]
    exact congrArg (fun a => some (treeFs.disk a)) slot
  have chain : (treeVolume 20#32).Chain 0 [⟨2#32, [46#8]⟩, ⟨3#32, [102#8]⟩] :=
    .cons (p := 0) (by decide) (by decide) (.cons (p := 12) (by decide) (by decide) .nil)
  have chains : treeFs.Chains 0 := Fs.chains_one count block ⟨chain, by decide⟩
  refine (dirlink_right_iff wf.coherent wf.spare wf.records chains (by decide) (by decide) (by decide)).2 ⟨?_, ?_⟩
  · intro k lt _
    obtain rfl : k = 0 := by omega
    exact ⟨_, block, .inl ⟨_, chain.meets (by decide)⟩⟩
  · intro _ k lt _ _
    obtain rfl : k = 0 := by omega
    refine ⟨_, 12, 1, block, ?_, by decide +kernel, fun _ => ⟨by decide +kernel, by decide +kernel, by decide +kernel⟩⟩
    exact .next (by decide) (by decide +kernel) (.next (by decide +kernel) (by decide +kernel) (.ending (by decide +kernel)))

/-- A block of four records with names of 248 bytes, which fill them. -/
def packedBlock : Block := fun i =>
  if (i : Nat) % 256 = 0 then 3#8 else if (i : Nat) % 256 = 5 then 1#8 else if (i : Nat) % 256 = 6 then 248#8
  else if (i : Nat) % 256 = 7 then 1#8 else if (i : Nat) % 256 < 5 then 0#8 else BitVec.ofNat 8 (97 + (i : Nat) / 256)

theorem packedBlock_valid : ∃ ds, packedBlock.Valid ds := by
  have chain := @Block.Chain.cons packedBlock 0 _ (by decide) (by decide) (.cons (by decide) (by decide)
    (.cons (by decide) (by decide) (.cons (by decide) (by decide) .nil)))
  exact ⟨_, chain, by decide +kernel⟩

/-- The last name has no NUL in the block, and the search for its end leaves it. -/
theorem dirlink_leaves_block : ∃ s, Coherent s ∧ s.Chains 0 ∧ s.fileBlock (s.itable 0) 0 = some packedBlock ∧
    ¬ LinksRight s 0 3#32 [120#8] 1#8 := by
  have run : (match ext2Dirlink 0 (makeDirent 3#32 [120#8] 1#8) { treeFs with disk := Function.update treeFs.disk 20#32 packedBlock } with
    | .error e => decide (e = .undefined)
    | .ok _ => false) = true := by decide +kernel
  have block : Fs.fileBlock { treeFs with disk := Function.update treeFs.disk 20#32 packedBlock } (treeFs.itable 0) 0 =
      some packedBlock := by
    have slot : (treeFs.itable 0).block 0 = 20#32 := by decide +kernel
    simp only [Fs.fileBlock, Nat.ofNat_pos, dif_pos]
    have here : (treeFs.itable 0).block ⟨0, by decide⟩ = 20#32 := slot
    rw [here, Function.update_self]
  refine ⟨{ treeFs with disk := Function.update treeFs.disk 20#32 packedBlock }, ?_, ?_, block, fun right => ?_⟩
  · exact ⟨fun _ _ => rfl, fun _ used => absurd rfl used, fun _ used => absurd rfl used, fun _ _ used => absurd rfl used⟩
  · obtain ⟨ds, valid⟩ := packedBlock_valid
    exact Fs.chains_one (show (treeFs.itable 0).nblock = 1 by decide +kernel) block valid
  · have inside := right.inside
    split at run
    case h_1 e fails => exact inside (fails.trans (congrArg _ (of_decide_eq_true run)))
    case h_2 => cases run
end Aarch64Os.Kernel
