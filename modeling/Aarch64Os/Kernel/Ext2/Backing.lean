import Aarch64Os.Kernel.Ext2.GrowRight
import Aarch64Os.Kernel.Ext2.NodeKept

/-!
# Storage behind the bytes of a file (`kernel/ext2.c`)

An inode is backed when its blocks hold every byte that its size counts, and the bitmap marks
them. On a sound volume every inode is backed, on the disk and in memory, and no block of data
is also a bitmap, a block of the inode table or an indirect block. Here is what each change of
the disk and of the inode table does to that.
-/

namespace Aarch64Os.Kernel
set_option autoImplicit false
open Base

/-- The disk block of logical block `j`, by the block map of an inode. -/
def Fs.mapOf (s : Fs) (x : Inode) (j : Nat) : Option (BitVec 32) :=
  if h : j < 12 then some (x.block ⟨j, direct_slot h⟩)
  else if 4 * (j - 12) + 4 ≤ BUFSIZE then some (le32 (s.disk (x.block 12)) (4 * (j - 12))) else none

/-- Every byte that the size counts lies in a block that is marked. -/
structure Fs.Backed (s : Fs) (x : Inode) : Prop where
  size : x.size.toNat ≤ x.nblock * s.sb.bsize.toNat
  block : ∀ j, j * s.sb.bsize.toNat < x.size.toNat → ∃ a, s.mapOf x j = some a ∧ a ≠ 0 ∧ s.InUse a

/-- The numbers of the inodes in the table. -/
def Superblock.Numbers (sb : Superblock) (n : BitVec 32) : Prop := n ≠ 0 ∧ n.toNat ≤ sb.inodes_per_group.toNat

/-- The bitmaps and the blocks of the inode table. -/
def Superblock.Meta (sb : Superblock) (a : BitVec 32) : Prop :=
  a = sb.block_bitmap ∨ a = sb.inode_bitmap ∨ ∃ n, sb.Numbers n ∧ a = sb.recordBlock n

/-- The metadata of a volume: blocks of 1024 bytes, and the bitmaps and the inode table apart. -/
structure Superblock.Laid (sb : Superblock) : Prop extends sb.Records where
  block_bitmap : sb.block_bitmap ≠ 0
  inode_bitmap : sb.inode_bitmap ≠ 0
  bitmaps : sb.inode_bitmap ≠ sb.block_bitmap
  table : ∀ n, sb.Numbers n → sb.recordBlock n ≠ 0 ∧ sb.recordBlock n ≠ sb.block_bitmap ∧ sb.recordBlock n ≠ sb.inode_bitmap

/-- The inodes in memory, and those on the disk. -/
def Fs.Inodes (s : Fs) (x : Inode) : Prop := (∃ i, s.itable i = x) ∨ ∃ n, s.sb.Numbers n ∧ s.inodeOn n = x

/-- The blocks that hold no data: metadata, and the indirect blocks of inodes. -/
def Fs.Kept (s : Fs) (a : BitVec 32) : Prop := s.sb.Meta a ∨ ∃ x, s.Inodes x ∧ 12 < x.nblock ∧ x.block 12 = a

/-- The blocks of inodes. -/
def Fs.Data (s : Fs) (a : BitVec 32) : Prop := a ≠ 0 ∧ ∃ x, s.Inodes x ∧ ∃ j < x.nblock, s.mapOf x j = some a

/-- A sound volume: buffers show the disk, no block is used for different things, and every inode
is backed. -/
structure Fs.Sound (s : Fs) : Prop where
  mirrored : s.Mirrored
  laid : s.sb.Laid
  inum : ∀ i, (s.itable i).ref ≠ 0 → s.sb.Numbers (s.itable i).inum
  indirect : ∀ x, s.Inodes x → 12 < x.nblock → x.block 12 ≠ 0 ∧ ¬ s.sb.Meta (x.block 12)
  apart : ∀ a, s.Data a → ¬ s.Kept a
  backed : ∀ x, s.Inodes x → s.Backed x

/-- `x` counts the blocks that `y` counts, -/
structure Inode.Counts (x y : Inode) : Prop where
  blocks : x.blocks = y.blocks
  block : ∀ k : Fin 15, (k : Nat) < y.nblock → x.block k = y.block k

/-- and no more bytes. -/
structure Inode.Within (x y : Inode) : Prop extends x.Counts y where
  size : x.size.toNat ≤ y.size.toNat

/-- `t` is sound, has no metadata where `s` had none, and marks the blocks that `s` marked. -/
structure Fs.Stays (s t : Fs) : Prop where
  sound : t.Sound
  sb : t.sb = s.sb
  kept : ∀ a, t.Kept a → s.Kept a
  used : ∀ a, s.InUse a → t.InUse a
  numbers : ∀ i, s.sb.Numbers (s.itable i).inum → t.sb.Numbers (t.itable i).inum

section Transport
variable {s t : Fs} {x y : Inode} {j : Nat} {a : BitVec 32}

theorem Fs.bmap_eq (s : Fs) (ino : InodeId) (j : Nat) : s.bmap ino j = s.mapOf (s.itable ino) j := rfl

theorem Fs.mapOf_direct (s : Fs) (x : Inode) (lt : j < 12) : s.mapOf x j = some (x.slot j) := by
  have index : Fin.ofNat 15 j = ⟨j, direct_slot lt⟩ := Fin.ext (Nat.mod_eq_of_lt (direct_slot lt))
  unfold Inode.slot
  rw [index]
  exact dif_pos lt

theorem Fs.setInode_entry (s : Fs) (i j : InodeId) (f : Inode → Inode) :
    j = i ∧ (s.setInode i f).itable j = f (s.itable i) ∨ j ≠ i ∧ (s.setInode i f).itable j = s.itable j := by
  rcases eq_or_ne j i with rfl | ne
  · exact .inl ⟨rfl, Function.update_self ..⟩
  · exact .inr ⟨ne, Function.update_of_ne ne ..⟩

theorem Inode.Within.refl (x : Inode) : x.Within x := ⟨⟨rfl, fun _ _ => rfl⟩, le_rfl⟩

theorem Inode.Counts.nblock (h : x.Counts y) : x.nblock = y.nblock := by
  unfold Inode.nblock
  rw [h.blocks]

theorem Fs.mapOf_congr (same : ∀ k : Fin 15, (k : Nat) < y.nblock → x.block k = y.block k)
    (map : 12 < y.nblock → t.disk (y.block 12) = s.disk (y.block 12)) (lt : j < y.nblock) : t.mapOf x j = s.mapOf y j := by
  unfold Fs.mapOf
  split
  · rw [same _ lt]
  · have far : 12 < y.nblock := by omega
    rw [same 12 far, map far]

theorem Fs.InUse.mono (sb : t.sb = s.sb) (bits : ∀ k, bit s.blockBitmap k = true → bit t.blockBitmap k = true) (used : s.InUse a) :
    t.InUse a := by
  obtain ⟨k, eq, set⟩ := used
  exact ⟨k, by rw [sb]; exact eq, bits k set⟩

/-- An inode stays backed while its map stays and no bit is cleared. -/
theorem Fs.Backed.keep (h : s.Backed y) (sb : t.sb = s.sb) (bits : ∀ k, bit s.blockBitmap k = true → bit t.blockBitmap k = true)
    (map : 12 < y.nblock → t.disk (y.block 12) = s.disk (y.block 12)) (within : x.Within y) : t.Backed x := by
  constructor
  · rw [within.nblock, sb]
    exact within.size.trans h.size
  · intro j inside
    rw [sb] at inside
    have before := inside.trans_le within.size
    obtain ⟨a, mapped, pos, used⟩ := h.block j before
    have lt : j < y.nblock := Nat.lt_of_mul_lt_mul_right (before.trans_le h.size)
    exact ⟨a, by rw [Fs.mapOf_congr within.block map lt]; exact mapped, pos, used.mono sb bits⟩

/-- **A change that keeps a volume sound**: each inode counts the blocks of one that was there
before and is backed by them, the indirect blocks are as they were, and no bit of the block bitmap
is cleared. -/
theorem Fs.Sound.change (h : s.Sound) (mirrored : t.Mirrored) (sb : t.sb = s.sb)
    (inum : ∀ i, (t.itable i).ref ≠ 0 → s.sb.Numbers (t.itable i).inum)
    (numbers : ∀ i, s.sb.Numbers (s.itable i).inum → s.sb.Numbers (t.itable i).inum)
    (inodes : ∀ x, t.Inodes x → t.Backed x ∧ ∃ y, s.Inodes y ∧ x.Counts y)
    (maps : ∀ y, s.Inodes y → 12 < y.nblock → t.disk (y.block 12) = s.disk (y.block 12))
    (bits : ∀ k, bit s.blockBitmap k = true → bit t.blockBitmap k = true) : s.Stays t := by
  have kept : ∀ a, t.Kept a → s.Kept a := by
    rintro a (inMeta | ⟨x, mem, big, rfl⟩)
    · exact .inl (sb ▸ inMeta)
    · obtain ⟨-, y, mem', counts⟩ := inodes x mem
      rw [counts.nblock] at big
      exact .inr ⟨y, mem', big, (counts.block 12 big).symm⟩
  refine ⟨⟨mirrored, sb ▸ h.laid, fun i used => ?_, fun x mem big => ?_, fun a data keeps => ?_, fun x mem => (inodes x mem).1⟩, sb,
    kept, fun a used => used.mono sb bits, fun i number => sb ▸ numbers i number⟩
  · rw [sb]
    exact inum i used
  · obtain ⟨-, y, mem', counts⟩ := inodes x mem
    rw [counts.nblock] at big
    rw [sb, counts.block 12 big]
    exact h.indirect y mem' big
  · obtain ⟨pos, x, mem, j, lt, mapped⟩ := data
    obtain ⟨-, y, mem', counts⟩ := inodes x mem
    rw [counts.nblock] at lt
    rw [Fs.mapOf_congr counts.block (maps y mem') lt] at mapped
    exact h.apart a ⟨pos, y, mem', j, lt, mapped⟩ (kept a keeps)

/-- An inode that counts no more bytes than before is backed. -/
theorem Fs.Sound.transport (h : s.Sound) (mirrored : t.Mirrored) (sb : t.sb = s.sb)
    (inum : ∀ i, (t.itable i).ref ≠ 0 → s.sb.Numbers (t.itable i).inum)
    (numbers : ∀ i, s.sb.Numbers (s.itable i).inum → s.sb.Numbers (t.itable i).inum)
    (inodes : ∀ x, t.Inodes x → ∃ y, s.Inodes y ∧ x.Within y)
    (maps : ∀ y, s.Inodes y → 12 < y.nblock → t.disk (y.block 12) = s.disk (y.block 12))
    (bits : ∀ k, bit s.blockBitmap k = true → bit t.blockBitmap k = true) : s.Stays t := by
  refine h.change mirrored sb inum numbers (fun x mem => ?_) maps bits
  obtain ⟨y, mem', within⟩ := inodes x mem
  exact ⟨(h.backed y mem').keep sb bits (maps y mem') within, y, mem', within.toCounts⟩

end Transport

namespace Fs.Stays
variable {s t u : Fs}

theorem refl (h : s.Sound) : s.Stays s := ⟨h, rfl, fun _ => id, fun _ => id, fun _ => id⟩

theorem trans (first : s.Stays t) (second : t.Stays u) : s.Stays u := by
  refine ⟨second.sound, second.sb.trans first.sb, fun a mem => first.kept a (second.kept a mem),
    fun a used => second.used a (first.used a used), fun i number => second.numbers i (first.numbers i number)⟩

end Fs.Stays

namespace Fs.Sound
variable {s t : Fs} {a n : BitVec 32} {i : InodeId} {f : Inode → Inode}

theorem table_kept (_ : s.Sound) (number : s.sb.Numbers n) : s.Kept (s.sb.recordBlock n) := .inl (.inr (.inr ⟨n, number, rfl⟩))

theorem bitmap_kept (_ : s.Sound) : s.Kept s.sb.block_bitmap := .inl (.inl rfl)

/-- Block 0 holds no metadata. -/
theorem kept_pos (h : s.Sound) (kept : s.Kept a) : a ≠ 0 := by
  rcases kept with (rfl | rfl | ⟨n, number, rfl⟩) | ⟨x, mem, big, rfl⟩
  · exact h.laid.block_bitmap
  · exact h.laid.inode_bitmap
  · exact (h.laid.table n number).1
  · exact (h.indirect x mem big).1

/-- The blocks that an inode counts hold no metadata. -/
theorem mapped_free (h : s.Sound) {x : Inode} (mem : s.Inodes x) {j : Nat} (lt : j < x.nblock) (mapped : s.mapOf x j = some a) : ¬ s.Kept a :=
  fun kept => h.apart a ⟨h.kept_pos kept, x, mem, j, lt, mapped⟩ kept

/-- Writes outside the metadata, and to the inode bitmap. -/
theorem frame (h : s.Sound) (mirrored : t.Mirrored) (itable : t.itable = s.itable) {on : BitVec 32 → Prop} (writes : s.Writes t on)
    (apart : ∀ a, on a → a = s.sb.inode_bitmap ∨ ¬ s.Kept a) : s.Stays t ∧ t.blockBitmap = s.blockBitmap := by
  have same : ∀ a, s.Kept a → a ≠ s.sb.inode_bitmap → t.disk a = s.disk a := fun a kept ne =>
    writes.disk a fun here => (apart a here).elim ne fun out => out kept
  have bitmap : t.blockBitmap = s.blockBitmap := by
    unfold Fs.blockBitmap
    rw [writes.sb]
    exact same _ h.bitmap_kept h.laid.bitmaps.symm
  refine ⟨h.transport mirrored writes.sb (by rw [itable]; exact h.inum) (by rw [itable]; exact fun _ => id) ?_ ?_ ?_, bitmap⟩
  · rintro x (⟨i, rfl⟩ | ⟨n, number, rfl⟩)
    · exact ⟨_, .inl ⟨i, rfl⟩, by rw [itable]; exact .refl _⟩
    · rw [writes.sb] at number
      refine ⟨_, .inr ⟨n, number, rfl⟩, ?_⟩
      unfold Fs.inodeOn
      rw [writes.sb, same _ (h.table_kept number) (h.laid.table n number).2.2]
      exact .refl _
  · exact fun y mem big => same _ (.inr ⟨y, mem, big, rfl⟩) fun eq => (h.indirect y mem big).2 (.inr (.inl eq))
  · intro k set
    rwa [bitmap]

/-- Nothing is written. -/
theorem quiet (h : s.Sound) (quiet : s.Quiet t) (steady : s.Steady t) : s.Stays t :=
  (h.frame (steady.mirrored h.mirrored) quiet.itable (quiet.writes fun _ => False) fun _ => False.elim).1

/-- A bit of the block bitmap is set. -/
theorem mark (h : s.Sound) (mirrored : t.Mirrored) (sb : t.sb = s.sb) (itable : t.itable = s.itable)
    (disk : ∀ a, a ≠ s.sb.block_bitmap → t.disk a = s.disk a)
    (bits : ∀ k, bit s.blockBitmap k = true → bit t.blockBitmap k = true) : s.Stays t := by
  refine h.transport mirrored sb (by rw [itable]; exact h.inum) (by rw [itable]; exact fun _ => id) ?_ ?_ bits
  · rintro x (⟨i, rfl⟩ | ⟨n, number, rfl⟩)
    · exact ⟨_, .inl ⟨i, rfl⟩, by rw [itable]; exact .refl _⟩
    · rw [sb] at number
      refine ⟨_, .inr ⟨n, number, rfl⟩, ?_⟩
      unfold Fs.inodeOn
      rw [sb, disk _ (h.laid.table n number).2.1]
      exact .refl _
  · exact fun y mem big => disk _ fun eq => (h.indirect y mem big).2 (.inl eq)

/-- An inode in memory takes the blocks of another, and is backed by them. -/
theorem setInode (h : s.Sound) {y : Inode} (mem : s.Inodes y) (counts : (f (s.itable i)).Counts y) (backed : s.Backed (f (s.itable i)))
    (used : (f (s.itable i)).ref ≠ 0 → s.sb.Numbers (f (s.itable i)).inum)
    (number : s.sb.Numbers (s.itable i).inum → s.sb.Numbers (f (s.itable i)).inum) : s.Stays (s.setInode i f) := by
  have stays : ∀ {x : Inode}, s.Backed x → (s.setInode i f).Backed x := fun backed =>
    backed.keep rfl (fun _ => id) (fun _ => rfl) (.refl _)
  refine h.change ⟨h.mirrored.clear, h.mirrored.shows, h.mirrored.once⟩ rfl ?_ ?_ ?_ (fun _ _ _ => rfl) fun _ => id
  · intro j held
    rcases s.setInode_entry i j f with ⟨rfl, entry⟩ | ⟨-, entry⟩
    · rw [entry] at held ⊢
      exact used held
    · rw [entry] at held ⊢
      exact h.inum j held
  · intro j before
    rcases s.setInode_entry i j f with ⟨rfl, entry⟩ | ⟨-, entry⟩
    · rw [entry]
      exact number before
    · rwa [entry]
  · rintro x (⟨j, rfl⟩ | ⟨n, number, rfl⟩)
    · rcases s.setInode_entry i j f with ⟨rfl, entry⟩ | ⟨-, entry⟩
      · rw [entry]
        exact ⟨stays backed, y, mem, counts⟩
      · rw [entry]
        exact ⟨stays (h.backed _ (.inl ⟨j, rfl⟩)), _, .inl ⟨j, rfl⟩, (Inode.Within.refl _).toCounts⟩
    · exact ⟨stays (h.backed _ (.inr ⟨n, number, rfl⟩)), _, .inr ⟨n, number, rfl⟩, (Inode.Within.refl _).toCounts⟩

/-- An inode changes in other fields, or counts less bytes. -/
theorem setInode_within (h : s.Sound) (within : (f (s.itable i)).Within (s.itable i))
    (ref : (f (s.itable i)).ref = (s.itable i).ref) (inum : (f (s.itable i)).inum = (s.itable i).inum) : s.Stays (s.setInode i f) := by
  have backed := (h.backed _ (.inl ⟨i, rfl⟩)).keep rfl (fun _ => id) (fun _ => rfl) within
  refine h.setInode (.inl ⟨i, rfl⟩) within.toCounts backed ?_ ?_
  · rw [ref, inum]
    exact h.inum i
  · rw [inum]
    exact id

/-- An inode gets a new size and new blocks, and is backed with them. -/
theorem renew (h : s.Sound) (backed : s.Backed (f (s.itable i))) (direct : (f (s.itable i)).nblock ≤ 12)
    (free : ∀ j < (f (s.itable i)).nblock, ∀ a, s.mapOf (f (s.itable i)) j = some a → ¬ s.Kept a)
    (ref : (f (s.itable i)).ref = (s.itable i).ref) (inum : (f (s.itable i)).inum = (s.itable i).inum) :
    s.Stays (s.setInode i f) := by
  have cases : ∀ x, (s.setInode i f).Inodes x → x = f (s.itable i) ∨ s.Inodes x := by
    rintro x (⟨j, rfl⟩ | ⟨n, number, rfl⟩)
    · rcases s.setInode_entry i j f with ⟨-, entry⟩ | ⟨-, entry⟩
      · exact .inl entry
      · exact .inr (.inl ⟨j, entry.symm⟩)
    · exact .inr (.inr ⟨n, number, rfl⟩)
  have kept : ∀ a, (s.setInode i f).Kept a → s.Kept a := by
    rintro a (inMeta | ⟨x, mem, big, rfl⟩)
    · exact .inl inMeta
    · rcases cases x mem with rfl | mem'
      · omega
      · exact .inr ⟨x, mem', big, rfl⟩
  have stays : ∀ {x : Inode}, s.Backed x → (s.setInode i f).Backed x := fun backed =>
    backed.keep rfl (fun _ => id) (fun _ => rfl) (.refl _)
  have number : ∀ j, ((s.setInode i f).itable j).inum = (s.itable j).inum ∧ ((s.setInode i f).itable j).ref = (s.itable j).ref := by
    intro j
    rcases s.setInode_entry i j f with ⟨rfl, entry⟩ | ⟨-, entry⟩
    · rw [entry]
      exact ⟨inum, ref⟩
    · rw [entry]
      exact ⟨rfl, rfl⟩
  refine ⟨⟨⟨h.mirrored.clear, h.mirrored.shows, h.mirrored.once⟩, h.laid, fun j used => ?_, fun x mem big => ?_, fun a data keeps => ?_,
    fun x mem => ?_⟩, rfl, kept, fun _ => id, fun j before => ?_⟩
  · rw [(number j).2] at used
    rw [(number j).1]
    exact h.inum j used
  · rcases cases x mem with rfl | mem'
    · omega
    · exact h.indirect x mem' big
  · obtain ⟨pos, x, mem, j, lt, mapped⟩ := data
    rcases cases x mem with rfl | mem'
    · exact free j lt a mapped (kept a keeps)
    · exact h.apart a ⟨pos, x, mem', j, lt, mapped⟩ (kept a keeps)
  · rcases cases x mem with rfl | mem'
    · exact stays backed
    · exact stays (h.backed x mem')
  · rwa [(number j).1]

/-- `inode_sync` stores an inode. -/
theorem sync (h : s.Sound) {ino : InodeId} (number : s.sb.Numbers (s.itable ino).inum) :
    After (inodeSync ino) s fun _ t => s.Stays t ∧ t.itable = s.itable ∧ t.blockBitmap = s.blockBitmap := by
  have laid := h.laid.table _ number
  refine ((mirrored_inodeSync s ino).and (writes_inodeSync s ino)).mono ?_
  rintro _ t ⟨⟨steady, fits, data, shows, disk⟩, writes, itable⟩
  obtain rfl := shows h.mirrored laid.1
  have bitmap : t.blockBitmap = s.blockBitmap := by
    unfold Fs.blockBitmap
    rw [writes.sb]
    exact writes.disk _ laid.2.1.symm
  refine ⟨h.transport (steady.mirrored h.mirrored) writes.sb ?_ ?_ ?_ ?_ ?_, itable, bitmap⟩
  · rw [itable]
    exact h.inum
  · rw [itable]
    exact fun _ => id
  · rintro x (⟨i, rfl⟩ | ⟨n, _, rfl⟩)
    · exact ⟨_, .inl ⟨i, rfl⟩, by rw [itable]; exact .refl _⟩
    · rw [Fs.inodeOn_sync h.laid.toRecords fits writes.sb disk n]
      split
      · exact ⟨_, .inl ⟨ino, rfl⟩, ⟨rfl, fun _ _ => rfl⟩, le_rfl⟩
      · exact ⟨_, .inr ⟨n, by rwa [← writes.sb], rfl⟩, .refl _⟩
  · exact fun y mem big => writes.disk _ fun eq => (h.indirect y mem big).2 (.inr (.inr ⟨_, number, eq⟩))
  · intro k set
    rwa [bitmap]

end Fs.Sound

end Aarch64Os.Kernel
