import Aarch64Os.Base.NameTree
import Aarch64Os.Kernel.Ext2.InumBits
import Aarch64Os.Kernel.Ext2.LinkRight
import Aarch64Os.Kernel.Ext2.StorageRuns

/-!
# The tree of directories (`kernel/ext2.c`)

The inodes that paths from the root lead to, by what is on the disk. Each has its number taken in
the inode bitmap; a directory among them has its blocks for itself, with records in each, and no
entry of the inode table has it otherwise. Here is what a change of the disk and of the inode table
may do without the tree being touched.
-/

namespace Aarch64Os.Kernel
set_option autoImplicit false
open Base

/-- A path from the root leads to the inode. -/
def Fs.Node (s : Fs) (i : BitVec 32) : Prop := s.graph.Reaches EXT2_ROOT_INO i

/-- The inode is a directory of the tree. -/
structure Fs.Dir (s : Fs) (i : BitVec 32) : Prop where
  node : s.Node i
  isDir : s.graph.isDir i = true

/-- Block `k` of a directory of the tree has the number `a`. -/
structure Fs.DirBlock (s : Fs) (i : BitVec 32) (k : Nat) (a : BitVec 32) : Prop where
  dir : s.Dir i
  lt : k < (s.inodeOn i).nblock
  slot : (s.inodeOn i).slot k = a

/-- The inode bitmap has the number. -/
def Fs.InumSet (s : Fs) (n : BitVec 32) : Prop := bit s.inodeBitmap (n.toNat - 1) = true

/-- An inode in memory or on the disk, with its number. -/
def Fs.Named (s : Fs) (n : BitVec 32) (x : Inode) : Prop := (∃ e, s.itable e = x ∧ x.inum = n) ∨ s.sb.Numbers n ∧ s.inodeOn n = x

/-- The same number, type and blocks. -/
structure Inode.Same (x y : Inode) : Prop where
  inum : x.inum = y.inum
  mode : x.mode = y.mode
  blocks : x.blocks = y.blocks
  block : x.block = y.block

/-- The blocks of a directory: direct ones, with a chain of records in each. -/
structure Fs.Listed (s : Fs) (x : Inode) : Prop where
  direct : x.nblock ≤ 12
  pos : ∀ k < x.nblock, x.slot k ≠ 0
  block : ∀ k < x.nblock, ∃ ds, (s.disk (x.slot k)).Chain 0 ds ∧ (s.disk (x.slot k)).Directory ds

/-- A sound volume with a tree: no free bit has the number of a block that an inode counts, the
blocks of a directory are counted by no other inode, and what is in memory of the tree is on the
disk. -/
structure Fs.Tree (s : Fs) : Prop where
  sound : s.Sound
  distinct : s.Distinct
  taken : ∀ i, s.Node i → s.sb.Numbers i ∧ s.InumSet i
  listed : ∀ i, s.Dir i → s.Listed (s.inodeOn i) ∧ (s.inodeOn i).nblock ≠ 0
  marked : ∀ a, s.Data a → a.toNat ∉ freeBits s.blockBitmap
  own : ∀ i k a, s.DirBlock i k a → ∀ n x, s.Named n x → ∀ m < x.nblock, s.mapOf x m = some a → n = i ∧ m = k
  held : ∀ e, s.Node (s.itable e).inum → s.Holds e (s.itable e).inum

/-- The tree is there after a change, and it is the one that was there before. -/
structure Fs.SameTree (s t : Fs) : Prop where
  tree : t.Tree
  alike : s.graph.Alike t.graph EXT2_ROOT_INO

section Inodes
variable {s t : Fs} {x y z : Inode} {n i : BitVec 32} {k : Nat} {e : InodeId}

theorem Inode.Same.refl (x : Inode) : x.Same x := ⟨rfl, rfl, rfl, rfl⟩

theorem Inode.Same.trans (first : x.Same y) (second : y.Same z) : x.Same z where
  inum := first.inum.trans second.inum
  mode := first.mode.trans second.mode
  blocks := first.blocks.trans second.blocks
  block := first.block.trans second.block

theorem Inode.Same.symm (h : x.Same y) : y.Same x := ⟨h.inum.symm, h.mode.symm, h.blocks.symm, h.block.symm⟩

theorem Inode.Same.counts (h : x.Same y) : x.Counts y := ⟨h.blocks, fun k _ => congrFun h.block k⟩

theorem Inode.Same.nblock (h : x.Same y) : x.nblock = y.nblock := h.counts.nblock

theorem Inode.Same.slot (h : x.Same y) : x.slot = y.slot := by
  unfold Inode.slot
  rw [h.block]

theorem Fs.inodeOn_inum (s : Fs) (n : BitVec 32) : (s.inodeOn n).inum = 0 := rfl

theorem Fs.inodes_iff : s.Inodes x ↔ ∃ n, s.Named n x := by
  constructor
  · rintro (⟨e, here⟩ | ⟨n, number, here⟩)
    · exact ⟨x.inum, .inl ⟨e, here, rfl⟩⟩
    · exact ⟨n, .inr ⟨number, here⟩⟩
  · rintro ⟨n, ⟨e, here, -⟩ | ⟨number, here⟩⟩
    · exact .inl ⟨e, here⟩
    · exact .inr ⟨n, number, here⟩

theorem Fs.Named.inodes (named : s.Named n x) : s.Inodes x := Fs.inodes_iff.2 ⟨n, named⟩

theorem Fs.Named.entry (s : Fs) (e : InodeId) : s.Named (s.itable e).inum (s.itable e) := .inl ⟨e, rfl, rfl⟩

theorem Fs.Named.record (number : s.sb.Numbers n) : s.Named n (s.inodeOn n) := .inr ⟨number, rfl⟩

theorem Fs.fileBlock_direct (s : Fs) (x : Inode) (lt : k < 12) : s.fileBlock x k = some (s.disk (x.slot k)) := by
  have index : Fin.ofNat 15 k = ⟨k, direct_slot lt⟩ := Fin.ext (Nat.mod_eq_of_lt (direct_slot lt))
  unfold Inode.slot
  rw [index]
  exact dif_pos lt

/-- What is in the blocks of a directory depends on these only. -/
theorem Fs.blockEntries_direct (lt : k < 12) (block : t.disk (x.slot k) = s.disk (y.slot k)) :
    t.blockEntries x k = s.blockEntries y k := by
  unfold Fs.blockEntries
  rw [Fs.fileBlock_direct _ _ lt, Fs.fileBlock_direct _ _ lt, block]

theorem Fs.entries_congr (same : x.Same y) (direct : y.nblock ≤ 12) (disk : ∀ k < y.nblock, t.disk (y.slot k) = s.disk (y.slot k)) :
    t.entries x = s.entries y := by
  unfold Fs.entries
  rw [same.nblock]
  apply List.flatMap_congr
  intro k mem
  have lt := List.mem_range.1 mem
  apply Fs.blockEntries_direct (lt.trans_le direct)
  rw [same.slot]
  exact disk k lt

theorem Fs.Listed.congr (h : s.Listed y) (same : x.Same y) (disk : ∀ k < y.nblock, t.disk (y.slot k) = s.disk (y.slot k)) : t.Listed x := by
  constructor
  · rw [same.nblock]
    exact h.direct
  · intro k lt
    rw [same.nblock] at lt
    rw [same.slot]
    exact h.pos k lt
  · intro k lt
    rw [same.nblock] at lt
    rw [same.slot, disk k lt]
    exact h.block k lt

/-- An entry of the table that holds an inode as it is on the disk. -/
theorem Fs.Holds.same (h : s.Holds e n) : (s.itable e).Same { s.inodeOn n with inum := n } := ⟨h.number, h.mode, h.blocks, h.block⟩

theorem Fs.Holds.congr (h : s.Holds e n) (entry : (t.itable e).Same (s.itable e)) (record : (t.inodeOn n).Same (s.inodeOn n)) : t.Holds e n where
  number := entry.inum.trans h.number
  mode := entry.mode.trans (h.mode.trans record.mode.symm)
  blocks := entry.blocks.trans (h.blocks.trans record.blocks.symm)
  block := entry.block.trans (h.block.trans record.block.symm)

theorem Fs.Holds.counts (h : s.Holds e n) : (s.itable e).Counts (s.inodeOn n) := ⟨h.blocks, fun k _ => congrFun h.block k⟩

theorem Fs.Holds.listed (h : s.Holds e n) (listed : s.Listed (s.inodeOn n)) : s.Listed (s.itable e) := by
  have nblock := h.counts.nblock
  have slot : (s.itable e).slot = (s.inodeOn n).slot := by
    unfold Inode.slot
    rw [h.block]
  constructor
  · rw [nblock]
    exact listed.direct
  · intro k lt
    rw [slot]
    exact listed.pos k (nblock ▸ lt)
  · intro k lt
    rw [slot]
    exact listed.block k (nblock ▸ lt)

end Inodes

namespace Fs.Tree
variable {s t : Fs} {i a : BitVec 32} {k : Nat}

/-- The block of a directory is one that an inode counts. -/
theorem data (h : s.Tree) (block : s.DirBlock i k a) : s.Data a := by
  obtain ⟨dir, lt, rfl⟩ := block
  obtain ⟨listed, -⟩ := h.listed i dir
  refine ⟨listed.pos k lt, s.inodeOn i, .inr ⟨i, (h.taken i dir.node).1, rfl⟩, k, lt, ?_⟩
  exact Fs.mapOf_direct s _ (lt.trans_le listed.direct)

theorem free (h : s.Tree) (block : s.DirBlock i k a) : ¬ s.Kept a := h.sound.apart a (h.data block)

end Fs.Tree

/-- **What leaves the tree alone.** The volume stays sound, the records of the tree's inodes and the
blocks of its directories are as they were, what other blocks an inode counts were free before, and
what is in memory of the tree is on the disk. -/
structure Fs.Spares (s t : Fs) : Prop where
  stays : s.Stays t
  distinct : t.Distinct
  inums : ∀ n, s.InumSet n → t.InumSet n
  nodes : ∀ i, s.Node i → (t.inodeOn i).Same (s.inodeOn i) ∨ s.graph.isDir i = false ∧ t.graph.isDir i = false
  disk : ∀ i k a, s.DirBlock i k a → t.disk a = s.disk a
  free : ∀ b ∈ freeBits t.blockBitmap, b ∈ freeBits s.blockBitmap
  blocks : ∀ n x, t.Named n x → ∀ m < x.nblock, ∀ a, t.mapOf x m = some a →
    (∃ y, s.Named n y ∧ m < y.nblock ∧ s.mapOf y m = some a) ∨ a.toNat ∈ freeBits s.blockBitmap ∧ a.toNat ∉ freeBits t.blockBitmap
  held : ∀ e, s.Node (t.itable e).inum → t.Holds e (t.itable e).inum

namespace Fs.Spares
variable {s t : Fs} {i a n : BitVec 32} {k m : Nat} {x : Inode}

theorem alike (spares : s.Spares t) (h : s.Tree) : s.graph.Alike t.graph EXT2_ROOT_INO := by
  constructor
  · intro i node
    rcases spares.nodes i node with same | ⟨before, after⟩
    · exact congrArg S_ISDIR same.mode
    · rw [before, after]
  · intro i node isDir
    have dir : s.Dir i := ⟨node, isDir⟩
    obtain ⟨listed, -⟩ := h.listed i dir
    rcases spares.nodes i node with same | ⟨before, -⟩
    · have entries : t.entries (t.inodeOn i) = s.entries (s.inodeOn i) :=
        Fs.entries_congr same listed.direct fun k lt => spares.disk i k _ ⟨dir, lt, rfl⟩
      funext c
      show ((t.entries (t.inodeOn i)).find? fun d => d.name = c).map Dirent.inode = _
      rw [entries]
      rfl
    · rw [before] at isDir
      cases isDir

theorem node (spares : s.Spares t) (h : s.Tree) (here : t.Node i) : s.Node i := (spares.alike h).reaches.1 here

/-- The directories are those that were there, with the same blocks. -/
theorem dir (spares : s.Spares t) (h : s.Tree) (dir : t.Dir i) : s.Dir i ∧ (t.inodeOn i).Same (s.inodeOn i) := by
  have before := spares.node h dir.node
  have isDir : s.graph.isDir i = true := by rw [← (spares.alike h).isDir i before, dir.isDir]
  refine ⟨⟨before, isDir⟩, (spares.nodes i before).resolve_right ?_⟩
  rintro ⟨file, -⟩
  rw [file] at isDir
  cases isDir

theorem dirBlock (spares : s.Spares t) (h : s.Tree) (block : t.DirBlock i k a) : s.DirBlock i k a := by
  obtain ⟨dir, lt, slot⟩ := block
  obtain ⟨dir', same⟩ := spares.dir h dir
  rw [same.nblock] at lt
  rw [same.slot] at slot
  exact ⟨dir', lt, slot⟩

theorem taken (spares : s.Spares t) (h : s.Tree) (here : t.Node i) : t.sb.Numbers i ∧ t.InumSet i := by
  obtain ⟨number, set⟩ := h.taken i (spares.node h here)
  rw [spares.stays.sb]
  exact ⟨number, spares.inums i set⟩

theorem listed (spares : s.Spares t) (h : s.Tree) (dir : t.Dir i) : t.Listed (t.inodeOn i) ∧ (t.inodeOn i).nblock ≠ 0 := by
  obtain ⟨dir', same⟩ := spares.dir h dir
  obtain ⟨listed, some⟩ := h.listed i dir'
  constructor
  · exact listed.congr same fun k lt => spares.disk i k _ ⟨dir', lt, rfl⟩
  · rw [same.nblock]
    exact some

theorem marked (spares : s.Spares t) (h : s.Tree) (data : t.Data a) : a.toNat ∉ freeBits t.blockBitmap := by
  obtain ⟨pos, x, mem, m, lt, mapped⟩ := data
  obtain ⟨n, named⟩ := Fs.inodes_iff.1 mem
  rcases spares.blocks n x named m lt a mapped with ⟨y, named', lt', mapped'⟩ | ⟨-, out⟩
  · exact fun inside => h.marked a ⟨pos, y, named'.inodes, m, lt', mapped'⟩ (spares.free _ inside)
  · exact out

theorem own (spares : s.Spares t) (h : s.Tree) (block : t.DirBlock i k a) (named : t.Named n x) (lt : m < x.nblock)
    (mapped : t.mapOf x m = some a) : n = i ∧ m = k := by
  have block' := spares.dirBlock h block
  rcases spares.blocks n x named m lt a mapped with ⟨y, named', lt', mapped'⟩ | ⟨inside, -⟩
  · exact h.own i k a block' n y named' m lt' mapped'
  · exact absurd inside (h.marked a (h.data block'))

/-- The tree is there still. -/
theorem tree (spares : s.Spares t) (h : s.Tree) : t.Tree where
  sound := spares.stays.sound
  distinct := spares.distinct
  taken _ here := spares.taken h here
  listed _ dir := spares.listed h dir
  marked _ data := spares.marked h data
  own _ _ _ block _ _ named _ lt mapped := spares.own h block named lt mapped
  held e here := spares.held e (spares.node h here)

theorem sameTree (spares : s.Spares t) (h : s.Tree) : s.SameTree t := ⟨spares.tree h, spares.alike h⟩

end Fs.Spares

theorem Fs.SameTree.refl {s : Fs} (h : s.Tree) : s.SameTree s := ⟨h, .refl _ _⟩

theorem Fs.SameTree.trans {s t u : Fs} (first : s.SameTree t) (second : t.SameTree u) : s.SameTree u :=
  ⟨second.tree, first.alike.trans second.alike⟩

theorem Fs.SameTree.node {s t : Fs} {i : BitVec 32} (same : s.SameTree t) : t.Node i ↔ s.Node i := same.alike.reaches

theorem Fs.SameTree.dir {s t : Fs} {i : BitVec 32} (same : s.SameTree t) : t.Dir i ↔ s.Dir i := by
  constructor
  · rintro ⟨node, isDir⟩
    have before := same.node.1 node
    exact ⟨before, by rw [← same.alike.isDir i before, isDir]⟩
  · rintro ⟨node, isDir⟩
    exact ⟨same.node.2 node, by rw [same.alike.isDir i node, isDir]⟩

end Aarch64Os.Kernel
