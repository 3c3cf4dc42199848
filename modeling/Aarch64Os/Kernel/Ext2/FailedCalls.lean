import Mathlib
import Aarch64Os.Kernel.Ext2.Effects

/-!
# What failed calls leave behind (`kernel/ext2.c`)

`ext2_mknod` and `ext2_mkdir` can fail after the number of the new inode has been taken from the
bitmap, and after the link count of the parent has been raised; nothing is undone. A call that
fails before has changed nothing on the disk, but its lookup has read inodes anew into the table.
-/

namespace Aarch64Os.Kernel
set_option autoImplicit false
open Base

/-- Two records of a file agree on its links, its size and its blocks. -/
structure Inode.Agrees (x y : Inode) : Prop where
  links_count : x.links_count = y.links_count
  size : x.size = y.size
  blocks : x.blocks = y.blocks
  block : x.block = y.block

theorem Inode.Agrees.refl (x : Inode) : x.Agrees x := ⟨rfl, rfl, rfl, rfl⟩

theorem Inode.Agrees.symm {x y : Inode} (h : x.Agrees y) : y.Agrees x :=
  ⟨h.links_count.symm, h.size.symm, h.blocks.symm, h.block.symm⟩

theorem Inode.Agrees.trans {x y z : Inode} (first : x.Agrees y) (second : y.Agrees z) : x.Agrees z :=
  ⟨first.links_count.trans second.links_count, first.size.trans second.size, first.blocks.trans second.blocks,
    first.block.trans second.block⟩

/-- An in-memory inode agrees with its record on the disk. -/
def Fs.Synced (s : Fs) (i : InodeId) : Prop := (s.itable i).Agrees (s.inodeOn (s.itable i).inum)

/-- The in-memory inodes of `s` that are in use are still what they were in `t`. -/
def Fs.KeepsInodes (s t : Fs) : Prop := ∀ i, (s.itable i).ref ≠ 0 → (t.itable i).Agrees (s.itable i)

/-- What a failed call is to leave as it was: the bitmaps, the entries of every directory, and
the records of every inode, on the disk and in memory. -/
structure Fs.Unchanged (s t : Fs) : Prop where
  inode_bitmap : t.disk t.sb.inode_bitmap = s.disk s.sb.inode_bitmap
  block_bitmap : t.disk t.sb.block_bitmap = s.disk s.sb.block_bitmap
  entries : ∀ inum, t.entries (t.inodeOn inum) = s.entries (s.inodeOn inum)
  on_disk : ∀ inum, (t.inodeOn inum).Agrees (s.inodeOn inum)
  in_memory : s.KeepsInodes t

/-- Each inode that the lookup of a parent directory loads meets `P` in the state it is loaded in. -/
def WalkAll (P : Fs → BitVec 32 → Prop) : Nat → Option InodeId → List Chr → NameBuf → Fs → Prop
  | 0, _, _, _, _ => True
  | left + 1, pi, path, name, s =>
    match skippath path name, pi with
    | .ok (name, some path), some p =>
      path = [] ∨ S_ISDIR (s.itable p).mode = false ∨ After (ext2SearchDir p name.mem) s fun inum t => 0 ≤ inum →
        P t (BitVec.ofInt 32 inum) ∧
          After (ext2GetInode (BitVec.ofInt 32 inum)) t fun next u => WalkAll P left next path NameBuf.zero u
    | _, _ => True

/-- The same for the whole lookup, with the root. -/
def PathAll (P : Fs → BitVec 32 → Prop) (cwd : InodeId) (path : List Chr) (s : Fs) : Prop :=
  (path.head? = some SLASH → P s EXT2_ROOT_INO) ∧
    After (pathStart cwd path) s fun ino t => WalkAll P (path.length + 1) ino path NameBuf.zero t

/-- An inode that is loaded is not in memory, or agrees with its record. -/
def Fs.LoadsSame (s : Fs) (inum : BitVec 32) : Prop :=
  ∀ i, s.inodeSlot inum = some (i, true) → (s.itable i).ref ≠ 0 → s.Synced i

section Walk

/-- What loading inodes may do to the table: an entry in use stays, or is read anew, and so is one
that is taken. -/
structure Fs.Reloads (s t : Fs) : Prop where
  disk : t.disk = s.disk
  sb : t.sb = s.sb
  entry : ∀ i, (s.itable i).ref ≠ 0 → (t.itable i).ref ≠ 0 ∧ (t.itable i).inum = (s.itable i).inum ∧
    ((t.itable i).Agrees (s.itable i) ∨ (t.itable i).Agrees (s.inodeOn (s.itable i).inum))
  taken : ∀ i, (s.itable i).ref = 0 → (t.itable i).ref ≠ 0 → t.Synced i

theorem Fs.Reloads.of_same {s t : Fs} (disk : t.disk = s.disk) (sb : t.sb = s.sb) (itable : t.itable = s.itable) : s.Reloads t := by
  refine ⟨disk, sb, fun i used => ?_, fun i free used => ?_⟩
  · rw [itable]
    exact ⟨used, rfl, .inl (.refl _)⟩
  · rw [itable] at used
    exact absurd free used

theorem Fs.Reloads.trans {s t u : Fs} (first : s.Reloads t) (second : t.Reloads u) : s.Reloads u := by
  refine ⟨second.disk.trans first.disk, second.sb.trans first.sb, fun i used => ?_, fun i free used => ?_⟩
  · obtain ⟨used', inum, now⟩ := first.entry i used
    obtain ⟨used'', inum', later⟩ := second.entry i used'
    refine ⟨used'', inum'.trans inum, ?_⟩
    rw [Fs.inodeOn_congr first.disk first.sb, inum] at later
    rcases later with same | anew
    · exact now.imp same.trans same.trans
    · exact .inr anew
  · rcases eq_or_ne (t.itable i).ref 0 with free' | used'
    · exact second.taken i free' used
    · have synced := first.taken i free used'
      obtain ⟨-, inum, later⟩ := second.entry i used'
      unfold Fs.Synced at synced ⊢
      rw [inum, Fs.inodeOn_congr second.disk second.sb]
      exact later.elim (fun same => same.trans synced) id

/-- What is kept in the end has been kept all the time. -/
theorem Fs.Reloads.keeps_trans {s t u : Fs} (first : s.Reloads t) (second : t.Reloads u) :
    s.KeepsInodes u ↔ s.KeepsInodes t ∧ t.KeepsInodes u := by
  constructor
  · intro keeps
    have before : s.KeepsInodes t := by
      intro i used
      obtain ⟨used', inum, now⟩ := first.entry i used
      rcases now with same | anew
      · exact same
      · obtain ⟨-, -, later⟩ := second.entry i used'
        rw [Fs.inodeOn_congr first.disk first.sb, inum] at later
        rcases later with same | anew'
        · exact same.symm.trans (keeps i used)
        · exact anew.trans (anew'.symm.trans (keeps i used))
    refine ⟨before, fun i used => ?_⟩
    rcases eq_or_ne (s.itable i).ref 0 with free | used'
    · obtain ⟨-, -, same | anew⟩ := second.entry i used
      · exact same
      · exact anew.trans (first.taken i free used).symm
    · exact (keeps i used').trans (before i used').symm
  · rintro ⟨before, behind⟩ i used
    exact (behind i (first.entry i used).1).trans (before i used)

/-- `ext2_get_inode` reads one inode anew. -/
theorem Coherent.getInode_reloads {s : Fs} (h : Coherent s) (few : ∀ i, (s.itable i).ref.toNat + 1 < 2 ^ 32) (inum : BitVec 32) :
    After (ext2GetInode inum) s fun _ t => Coherent t ∧ s.Reloads t ∧ (s.KeepsInodes t ↔ s.LoadsSame inum) ∧
      ∀ i, (t.itable i).ref.toNat ≤ (s.itable i).ref.toNat + 1 := by
  refine After.mono (h.getInode_after inum) ?_
  rintro r t ⟨coherent, disk, sb, result⟩
  refine ⟨coherent, ?_⟩
  cases slot : s.inodeSlot inum with
  | none =>
    rw [slot] at result
    refine ⟨.of_same disk sb result.2, ?_, fun i => by rw [result.2]; omega⟩
    refine ⟨fun _ i held => ?_, fun _ i used => ?_⟩
    · rw [slot] at held
      cases held
    · rw [result.2]
      exact .refl _
  | some p =>
    obtain ⟨i, held⟩ := p
    rw [slot] at result
    have here : t.itable i = (s.itable i).fillFrom inum (s.disk (s.sb.recordBlock inum)) (s.sb.recordOff inum) := by
      rw [result.2, Function.update_self]
    have there : ∀ j, j ≠ i → t.itable j = s.itable j := fun j ne => by rw [result.2, Function.update_of_ne ne]
    have more : (t.itable i).ref.toNat = (s.itable i).ref.toNat + 1 := by
      rw [here]
      show ((s.itable i).ref + 1).toNat = _
      rw [BitVec.toNat_add_of_lt (few i)]
      rfl
    have anew : (t.itable i).Agrees (s.inodeOn inum) := by
      rw [here]
      exact ⟨rfl, rfl, rfl, rfl⟩
    have number : (s.itable i).ref ≠ 0 → (s.itable i).inum = inum ∧ held = true := by
      intro used
      cases held with
      | true => exact ⟨s.inodeSlot_held slot, rfl⟩
      | false => exact absurd (Fs.inodeSlot_new slot).1 used
    refine ⟨⟨disk, sb, fun j used => ?_, fun j free used => ?_⟩, ⟨fun keeps j found used => ?_, fun same j used => ?_⟩, fun j => ?_⟩
    · rcases eq_or_ne j i with rfl | ne
      · refine ⟨fun zero => ?_, ?_, .inr ?_⟩
        · rw [zero] at more
          cases more
        · rw [here, (number used).1]
          rfl
        · rw [(number used).1]
          exact anew
      · rw [there j ne]
        exact ⟨used, rfl, .inl (.refl _)⟩
    · rcases eq_or_ne j i with rfl | ne
      · unfold Fs.Synced
        rw [Fs.inodeOn_congr disk sb, here]
        exact ⟨rfl, rfl, rfl, rfl⟩
      · rw [there j ne] at used
        exact absurd free used
    · rw [slot] at found
      cases found
      unfold Fs.Synced
      rw [(number used).1]
      exact (keeps i used).symm.trans anew
    · rcases eq_or_ne j i with rfl | ne
      · have synced := same j (by rw [slot, (number used).2]) used
        unfold Fs.Synced at synced
        rw [(number used).1] at synced
        exact anew.trans synced.symm
      · rw [there j ne]
        exact .refl _
    · rcases eq_or_ne j i with rfl | ne
      · exact more.le
      · rw [there j ne]
        omega

/-- The walk to a parent directory. -/
theorem Coherent.traverseInodeParent_after (left : Nat) : ∀ {s : Fs} (pi : Option InodeId) (path : List Chr) (name : NameBuf),
    Coherent s → (∀ i, (s.itable i).ref.toNat + left < 2 ^ 32) → After (traverseInodeParent left pi path name) s fun _ t =>
      Coherent t ∧ s.Reloads t ∧ (s.KeepsInodes t ↔ WalkAll Fs.LoadsSame left pi path name s) := by
  induction left with
  | zero => exact fun pi path name h few => After.throw _
  | succ left ih =>
    intro s pi path name h few
    have stays : Coherent s ∧ s.Reloads s ∧ s.KeepsInodes s := ⟨h, .of_same rfl rfl rfl, fun i _ => .refl _⟩
    unfold traverseInodeParent WalkAll
    cases skip : skippath path name with
    | error e => exact After.bind (after_lift s _) fun _ _ found => nomatch found.1
    | ok r =>
    obtain ⟨name', path'⟩ := r
    refine After.step (FsM.lift_ok rfl) ?_
    cases path' with
    | none => exact After.pure ⟨stays.1, stays.2.1, fun _ => trivial, fun _ => stays.2.2⟩
    | some path' =>
    dsimp only
    split
    case isTrue ending =>
      refine After.pure ⟨stays.1, stays.2.1, fun _ => ?_, fun _ => stays.2.2⟩
      cases pi with
      | none => trivial
      | some p => exact .inl ending
    case isFalse more =>
    cases pi with
    | none => exact After.throw _
    | some p =>
    refine After.step FsM.get_run ?_
    cases dir : S_ISDIR (s.itable p).mode with
    | false => exact After.pure ⟨stays.1, stays.2.1, fun _ => .inr (.inl dir), fun _ => stays.2.2⟩
    | true =>
    intro r t run
    obtain ⟨inum, u, search, rest⟩ := run_bind.1 run
    obtain rfl := h.searchDir_after p _ inum u search
    dsimp only
    rw [or_iff_right more, dir, or_iff_right (by simp), After.iff_of_run search]
    split at rest
    case isTrue neg =>
      cases rest
      exact ⟨stays.1, stays.2.1, fun _ nonneg => absurd neg (by omega), fun _ => stays.2.2⟩
    case isFalse nonneg =>
      obtain ⟨next, v, load, rest⟩ := run_bind.1 rest
      obtain ⟨coherent, first, same, refs⟩ := h.getInode_reloads (fun i => by have := few i; omega) _ next v load
      have few' : ∀ i, (v.itable i).ref.toNat + left < 2 ^ 32 := by
        intro i
        have before := few i
        have step := refs i
        omega
      obtain ⟨coherent', second, same'⟩ := ih next path' NameBuf.zero coherent few' r t rest
      refine ⟨coherent', first.trans second, ?_⟩
      rw [first.keeps_trans second, same, same', After.iff_of_run load]
      exact ⟨fun both _ => both, fun both => both (by omega)⟩

/-- **The lookup of a parent directory** changes nothing on the disk, and leaves the inodes in
memory as they are exactly when those it loads agree with their records. -/
theorem Coherent.ext2Path2inodeParent_after {s : Fs} (h : Coherent s) (cwd : InodeId) (path : List Chr)
    (few : ∀ i, (s.itable i).ref.toNat + path.length + 2 < 2 ^ 32) : After (ext2Path2inodeParent cwd path) s fun _ t =>
      Coherent t ∧ s.Reloads t ∧ (s.KeepsInodes t ↔ PathAll Fs.LoadsSame cwd path s) := by
  intro r t run
  obtain ⟨ino, u, start, rest⟩ := run_bind.1 run
  have begins : Coherent u ∧ s.Reloads u ∧ (s.KeepsInodes u ↔ (path.head? = some SLASH → s.LoadsSame EXT2_ROOT_INO)) ∧
      ∀ i, (u.itable i).ref.toNat ≤ (s.itable i).ref.toNat + 1 := by
    unfold pathStart at start
    split at start
    case isTrue root =>
      obtain ⟨coherent, first, same, refs⟩ := h.getInode_reloads (fun i => by have := few i; omega) _ ino u start
      exact ⟨coherent, first, same.trans ⟨fun same _ => same, fun same => same root⟩, refs⟩
    case isFalse relative =>
      cases start
      exact ⟨h, .of_same rfl rfl rfl, ⟨fun _ root => absurd root relative, fun _ i _ => .refl _⟩, fun i => by omega⟩
  obtain ⟨coherent, first, same, refs⟩ := begins
  have few' : ∀ i, (u.itable i).ref.toNat + (path.length + 1) < 2 ^ 32 := by
    intro i
    have before := few i
    have step := refs i
    omega
  obtain ⟨coherent', second, same'⟩ := Coherent.traverseInodeParent_after _ ino path NameBuf.zero coherent few' r t rest
  refine ⟨coherent', first.trans second, ?_⟩
  rw [first.keeps_trans second, same, same']
  unfold PathAll
  rw [After.iff_of_run start]

end Walk

/-- The inode bitmap is none of the blocks that a new directory writes to: the other bitmap, the
block of its record and its first block. Its place in the table is empty. -/
def Fs.Apart (s : Fs) : Prop :=
  s.sb.bsize = 1024#32 ∧ s.sb.inode_bitmap ≠ 0 ∧ s.sb.block_bitmap ≠ s.sb.inode_bitmap ∧
  (∀ bn, findFreeBlock s.sb.bsize (s.disk s.sb.block_bitmap) = .ok bn → BitVec.ofInt 32 bn ≠ s.sb.inode_bitmap) ∧
  ∀ num, findFreeIno s.sb.bsize (s.disk s.sb.inode_bitmap) = .ok num →
    s.sb.recordBlock (BitVec.ofInt 32 num) ≠ s.sb.inode_bitmap ∧
    ∀ i held, s.inodeSlot (BitVec.ofInt 32 num) = some (i, held) → (s.itable i).blocks = 0 ∧ (s.itable i).block = fun _ => 0

/-- The mode of a directory. -/
def IsDirMode (mode : BitVec 32) : Prop := mode &&& S_IFMT.setWidth 32 = S_IFDIR.setWidth 32

instance (mode : BitVec 32) : Decidable (IsDirMode mode) := inferInstanceAs (Decidable (_ = _))

section NewInode
variable {s : Fs} {name : List (BitVec 8)} {ino dir : InodeId} {mode dev : BitVec 32}

/-- The link of a new inode writes nothing when it fails. -/
theorem linkNew_fails (s : Fs) (name : List (BitVec 8)) (ino dir : InodeId) :
    After (linkNew name ino dir) s fun r t => r = none → s.Quiet t := by
  unfold linkNew
  refine After.step FsM.get_run ?_
  refine After.bind (after_lift s _) ?_
  rintro file_type _ ⟨-, rfl⟩
  refine After.bind (dirlink_fails s dir _) ?_
  intro r t fails
  split
  case isTrue neg => exact After.pure fun _ => fails neg
  case isFalse => exact After.behind fun _ u => After.behind fun _ v => After.pure nofun

/-- The entries of a new directory are written to its first block. -/
theorem Coherent.linkDots_writes (h : Coherent s) (bsize : s.sb.bsize = 1024#32) (none : (s.itable ino).blocks = 0)
    (empty : (s.itable ino).block = fun _ => 0) : After (linkDots ino dir) s fun _ t =>
      ∃ bn, findFreeBlock s.sb.bsize (s.disk s.sb.block_bitmap) = .ok bn ∧
        s.Writes t fun a => a = s.sb.block_bitmap ∨ a = s.record ino ∨ a = BitVec.ofInt 32 bn := by
  unfold linkDots
  refine After.step (FsM.modify_run _) ?_
  refine After.step FsM.get_run ?_
  -- raising the count of the parent does not change the blocks of the new inode
  generalize raised : s.setInode dir (fun x => { x with links_count := x.links_count + 1 }) = s'
  have h' : Coherent s' := raised ▸ h.setInode dir _
  have here : (s'.itable ino).blocks = 0 ∧ (s'.itable ino).block = (fun _ => 0) ∧ (s'.itable ino).inum = (s.itable ino).inum := by
    rw [← raised]
    unfold Fs.setInode
    rcases eq_or_ne ino dir with rfl | ne
    · simp only [Function.update_self]
      exact ⟨none, empty, trivial⟩
    · simp only [Function.update_of_ne ne]
      exact ⟨none, empty, trivial⟩
  have sb : s'.sb = s.sb := by rw [← raised]; rfl
  have disk : s'.disk = s.disk := by rw [← raised]; rfl
  have record : s'.record ino = s.record ino := by unfold Fs.record; rw [sb, here.2.2]
  have blank : (s'.itable ino).nblock = 0 := by rw [Inode.nblock, here.1]; rfl
  have slot : (s'.itable ino).freeSlot = some 0 := by
    unfold Inode.freeSlot
    rw [here.2.1]
    rfl
  intro r t run
  obtain ⟨first, u, link, rest⟩ := run_bind.1 run
  obtain ⟨bn, found, writes, table⟩ := h'.dirlink_empty blank _ first u link
  rw [slot] at table
  simp only at table
  rw [sb, disk] at found
  rw [sb, record] at writes
  have start : s.Writes s' fun a => a = s.sb.block_bitmap ∨ a = s.record ino ∨ a = BitVec.ofInt 32 bn :=
    ⟨sb, fun a _ => by rw [disk]⟩
  refine ⟨bn, found, ?_⟩
  split at rest
  case isTrue =>
    cases rest
    exact start.trans writes
  case isFalse =>
  rw [FsM.bind_of_ok FsM.get_run] at rest
  obtain ⟨second, v, link', rest⟩ := run_bind.1 rest
  have block : (u.itable ino).block 0 = BitVec.ofInt 32 bn := by rw [table]; simp [Fs.append, Fs.setInode]
  have count : (u.itable ino).nblock = 1 := by
    rw [table]
    simp only [Fs.append, Fs.setInode, Function.update_self, Inode.nblock, here.1, sb, bsize]
    decide
  obtain ⟨-, writes'⟩ := dirlink_writes (by rw [count]; decide) (by rw [count]; decide) _ second v link'
  have behind : u.Writes v fun a => a = s.sb.block_bitmap ∨ a = s.record ino ∨ a = BitVec.ofInt 32 bn := by
    apply writes'.mono
    rintro a ⟨k, lt, below, rfl⟩
    obtain rfl : k = 0 := by omega
    exact .inr (.inr block)
  have total := (start.trans writes).trans behind
  split at rest
  · cases rest
    exact total
  · cases rest
    exact total.trans ⟨rfl, fun a _ => rfl⟩

/-- What the file type of a new inode asks for leaves the inode bitmap alone. -/
theorem newByType_writes (fresh : IsDirMode mode → Coherent s ∧ s.sb.bsize = 1024#32 ∧ (s.itable ino).blocks = 0 ∧
      (s.itable ino).block = (fun _ => 0) ∧ s.record ino ≠ s.sb.inode_bitmap ∧ s.sb.block_bitmap ≠ s.sb.inode_bitmap ∧
      ∀ bn, findFreeBlock s.sb.bsize (s.disk s.sb.block_bitmap) = .ok bn → BitVec.ofInt 32 bn ≠ s.sb.inode_bitmap) :
    After (newByType ino dir mode) s fun _ t => t.sb = s.sb ∧ t.disk s.sb.inode_bitmap = s.disk s.sb.inode_bitmap := by
  unfold newByType
  split
  case isTrue isDir =>
    obtain ⟨h, bsize, none, empty, record, bitmap, block⟩ := fresh isDir
    refine After.mono (h.linkDots_writes bsize none empty) ?_
    rintro r t ⟨bn, found, writes⟩
    refine ⟨writes.sb, writes.disk _ ?_⟩
    rintro (same | same | same)
    · exact bitmap same.symm
    · exact record same.symm
    · exact block bn found same.symm
  case isFalse =>
    refine After.step (FsM.modify_run _) ?_
    apply After.pure
    split
    · exact ⟨rfl, rfl⟩
    · exact ⟨rfl, rfl⟩

/-- `find_inode` finds a place in the table, or not. -/
theorem findInode_after (s : Fs) (inum : BitVec 32) : After (findInode inum) s fun r t =>
    (r = none ∧ t = s) ∨ ∃ i held g, s.inodeSlot inum = some (i, held) ∧ r = some i ∧ t = s.setInode i g ∧
      (g (s.itable i)).inum = inum ∧ (g (s.itable i)).blocks = (s.itable i).blocks ∧ (g (s.itable i)).block = (s.itable i).block := by
  intro r t run
  unfold findInode at run
  split at run
  case h_1 i slot =>
    cases run
    exact .inr ⟨i, true, _, slot, rfl, rfl, s.inodeSlot_held slot, rfl, rfl⟩
  case h_2 i slot =>
    cases run
    exact .inr ⟨i, false, _, slot, rfl, rfl, rfl, rfl, rfl⟩
  case h_3 =>
    cases run
    exact .inl ⟨rfl, rfl⟩

/-- A new inode that is not made has found the bitmap full, or has taken a number from it. -/
theorem Coherent.ext2NewInode_fails (h : Coherent s) (apart : IsDirMode mode → s.Apart) :
    After (ext2NewInode name dir mode dev) s fun r t => r = none →
      (Full s.sb.bsize (s.disk s.sb.inode_bitmap) ∧ s.Quiet t) ∨
        ¬ Full s.sb.bsize (s.disk s.sb.inode_bitmap) ∧ t.disk t.sb.inode_bitmap ≠ s.disk s.sb.inode_bitmap := by
  rw [ext2NewInode_eq]
  unfold ext2AllocInode
  intro r t run failed
  subst failed
  rw [bind_assoc] at run
  obtain ⟨num, u, alloc, rest⟩ := run_bind.1 run
  obtain ⟨found, writes, same⟩ := h.allocBit_after _ (by omega) num u alloc
  obtain ⟨b, slot, ⟨rfl, full, rfl⟩ | ⟨k, rfl, lt, byte, clear, rfl⟩⟩ := h.allocBit_ok (by omega) alloc
  · cases rest
    exact .inl ⟨full, rfl, rfl, rfl⟩
  · rw [if_neg (by omega)] at rest
    have changed : setBit (s.disk s.sb.inode_bitmap) k ≠ s.disk s.sb.inode_bitmap := by
      intro same
      have now := bit_setBit (s.disk s.sb.inode_bitmap) byte k
      rw [same, clear] at now
      simp at now
    have notFull : ¬ Full s.sb.bsize (s.disk s.sb.inode_bitmap) := by
      intro full
      have all := full ⟨k / 8, by omega⟩ (by show k / 8 < _; omega)
      rw [bit, dif_pos (by omega), all, getLsbD_0xff (by omega)] at clear
      cases clear
    refine .inr ⟨notFull, ?_⟩
    have marked : (s.markBit b s.sb.inode_bitmap k).disk s.sb.inode_bitmap = setBit (s.disk s.sb.inode_bitmap) k := by
      rw [markBit_disk, Function.update_self]
    generalize left : s.markBit b s.sb.inode_bitmap k = u at *
    have sb : u.sb = s.sb := writes.sb
    suffices kept : t.sb = u.sb ∧ t.disk s.sb.inode_bitmap = u.disk s.sb.inode_bitmap by
      rw [kept.1, sb, kept.2, marked]
      exact changed
    obtain ⟨ino, v, find, behind⟩ := run_bind.1 rest
    rcases findInode_after u _ ino v find with ⟨rfl, rfl⟩ | ⟨i, held, g, place, rfl, rfl, inum, blocks, block⟩
    · cases behind
      exact ⟨rfl, rfl⟩
    dsimp only at behind
    rw [FsM.bind_of_ok (FsM.modify_run _)] at behind
    have entry : ((u.setInode i g).setInode i fun x => x.asNew mode dev).itable i = (g (u.itable i)).asNew mode dev := by
      simp [Fs.setInode]
    obtain ⟨dots, w, byType, last⟩ := run_bind.1 behind
    have kept : w.sb = u.sb ∧ w.disk u.sb.inode_bitmap = u.disk u.sb.inode_bitmap := by
      refine newByType_writes (s := (u.setInode i g).setInode i fun x => x.asNew mode dev) (fun isDir => ?_) dots w byType
      obtain ⟨bsize, pos, bitmap, bns, nums⟩ := apart isDir
      obtain ⟨record, empty⟩ := nums _ found
      have coherent : Coherent u := left ▸ h.letGo_write slot pos
      have slot' : s.inodeSlot (BitVec.ofInt 32 (1 + k)) = some (i, held) := by
        unfold Fs.inodeSlot at place ⊢
        rwa [same] at place
      obtain ⟨zero, clear⟩ := empty i held slot'
      rw [← same] at zero clear
      refine ⟨(coherent.setInode i g).setInode i _, sb ▸ bsize, ?_, ?_, ?_, sb ▸ bitmap, fun bn free => ?_⟩
      · rw [entry]
        exact blocks.trans zero
      · rw [entry]
        exact block.trans clear
      · show u.sb.recordBlock _ ≠ _
        rw [entry]
        show u.sb.recordBlock (g (u.itable i)).inum ≠ u.sb.inode_bitmap
        rw [inum, sb]
        exact record
      · have there : u.disk u.sb.block_bitmap = s.disk s.sb.block_bitmap := by
          rw [sb]
          exact writes.disk _ bitmap
        change findFreeBlock u.sb.bsize (u.disk u.sb.block_bitmap) = .ok bn at free
        rw [there, sb] at free
        show BitVec.ofInt 32 bn ≠ u.sb.inode_bitmap
        rw [sb]
        exact bns bn free
    rw [← sb]
    split at last
    · cases last
      exact kept
    · have quiet := linkNew_fails w name i dir none t last rfl
      exact ⟨quiet.sb.trans kept.1, by rw [quiet.disk]; exact kept.2⟩

end NewInode

/-- **A failed call.** When `mkdir` or `mknod` fails, it has left the bitmaps, the directories and the
inodes as they were exactly if there is no parent directory or no free inode, and the inodes on
the way that are in memory agree with their records. -/
theorem failed_call_changes_nothing_iff {s t : Fs} {cwd : InodeId} {path : List Chr} {mode dev : BitVec 32} (h : Coherent s)
    (few : ∀ i, (s.itable i).ref.toNat + path.length + 2 < 2 ^ 32)
    (apart : IsDirMode mode → After (ext2Path2inodeParent cwd path) s fun _ u => u.Apart)
    (fails : ext2Mknod cwd path mode dev s = .ok (none, t)) :
    s.Unchanged t ↔ ((∃ name u, ext2Path2inodeParent cwd path s = .ok ((none, name), u)) ∨
      Full s.sb.bsize (s.disk s.sb.inode_bitmap)) ∧ PathAll Fs.LoadsSame cwd path s := by
  obtain ⟨⟨pdir, namebuf⟩, u, lookup, rest⟩ := run_bind.1 fails
  obtain ⟨coherent, reloads, keeps⟩ := h.ext2Path2inodeParent_after cwd path few _ u lookup
  -- a call that goes no further than the lookup, on the disk
  have stops : u.Quiet t → (s.Unchanged t ↔ PathAll Fs.LoadsSame cwd path s) := by
    intro quiet
    have disk : t.disk = s.disk := quiet.disk.trans reloads.disk
    have sb : t.sb = s.sb := quiet.sb.trans reloads.sb
    have table : s.KeepsInodes t ↔ s.KeepsInodes u := by
      unfold Fs.KeepsInodes
      rw [quiet.itable]
    rw [← keeps, ← table]
    refine ⟨Fs.Unchanged.in_memory, fun same => ⟨by rw [disk, sb], by rw [disk, sb], fun inum => ?_, fun inum => ?_, same⟩⟩
    · rw [Fs.inodeOn_congr disk sb]
      unfold Fs.entries Fs.blockEntries Fs.fileBlock
      rw [disk]
    · rw [Fs.inodeOn_congr disk sb]
      exact .refl _
  cases pdir with
  | none =>
    cases rest
    rw [stops (.refl _)]
    exact ⟨fun all => ⟨.inl ⟨namebuf, t, lookup⟩, all⟩, And.right⟩
  | some pdir =>
    have found : ¬ ∃ name u, ext2Path2inodeParent cwd path s = .ok ((none, name), u) := by
      rintro ⟨name, v, none⟩
      rw [lookup] at none
      cases none
    rw [or_iff_right found, ← reloads.sb, ← reloads.disk]
    rcases coherent.ext2NewInode_fails (fun isDir => apart isDir _ u lookup) none t rest rfl with ⟨full, quiet⟩ | ⟨notFull, changed⟩
    · rw [stops quiet]
      exact ⟨fun all => ⟨full, all⟩, And.right⟩
    · refine iff_of_false (fun same => changed ?_) fun both => notFull both.1
      rw [same.inode_bitmap, reloads.disk, reloads.sb]

/-- The small volume with its inode bitmap in block 5, and the first three inodes marked there. -/
def markedVolume (bno : BitVec 32) : Block := fun i =>
  if bno = 5#32 then if (i : Nat) = 0 then 7#8 else 0#8
  else if bno = 2#32 ∧ (i : Nat) = 4 then 5#8 else treeVolume bno i

/-- That volume, mounted. -/
def markedFs : Fs := { Fs.boot markedVolume with sb := superblockOf (markedVolume 1#32) (markedVolume 2#32) }

theorem markedFs_coherent : Coherent markedFs :=
  ⟨fun _ _ => rfl, fun _ used => absurd rfl used, fun _ used => absurd rfl used, fun _ _ used => absurd rfl used⟩

/-- `mknod("/x/x")` there finds no parent, and changes nothing. -/
theorem failed_call_changes_nothing_iff_parent :
    ∃ t, ext2Mknod 0 [SLASH, X, SLASH, X] 0x81a4#32 0 markedFs = .ok (none, t) ∧ markedFs.Unchanged t := by
  have fails : ((ext2Mknod 0 [SLASH, X, SLASH, X] 0x81a4#32 0 markedFs).toOption.any fun r => decide (r.1 = none)) = true := by
    decide +kernel
  have missing : ((ext2Path2inodeParent 0 [SLASH, X, SLASH, X] markedFs).toOption.any fun r => decide (r.1.1 = none)) = true := by
    decide +kernel
  have walk : ((pathStart 0 [SLASH, X, SLASH, X] markedFs).toOption.all fun r => r.1.all fun p =>
      (skippath [SLASH, X, SLASH, X] NameBuf.zero).toOption.all fun q =>
        (ext2SearchDir p q.1.mem r.2).toOption.all fun found => decide (found.1 < 0)) = true := by decide +kernel
  have root : markedFs.inodeSlot EXT2_ROOT_INO = some (0, false) := by decide +kernel
  cases run : ext2Mknod 0 [SLASH, X, SLASH, X] 0x81a4#32 0 markedFs with
  | error e =>
    rw [run] at fails
    cases fails
  | ok r =>
  obtain ⟨node, t⟩ := r
  rw [run] at fails
  obtain rfl : node = none := of_decide_eq_true fails
  cases lookup : ext2Path2inodeParent 0 [SLASH, X, SLASH, X] markedFs with
  | error e =>
    rw [lookup] at missing
    cases missing
  | ok r =>
  obtain ⟨⟨parent, name⟩, u⟩ := r
  rw [lookup] at missing
  obtain rfl : parent = none := of_decide_eq_true missing
  refine ⟨t, rfl, (failed_call_changes_nothing_iff markedFs_coherent (fun i => ?_) (fun isDir => absurd isDir (by decide)) run).2
    ⟨.inl ⟨name, u, lookup⟩, fun _ i held => ?_, fun ino v start => ?_⟩⟩
  · show 0 + 4 + 2 < 2 ^ 32
    decide
  · rw [root] at held
    cases held
  · rw [start] at walk
    unfold WalkAll
    split
    case h_1 p name' path' skip =>
      rw [skip] at walk
      refine .inr (.inr fun inum x search nonneg => ?_)
      simp only [Except.toOption, Option.all_some, search, decide_eq_true_eq] at walk
      omega
    case h_2 => trivial

/-- `mknod("/f")` there fails, as there is a file of this name, and leaves a fourth inode marked. -/
theorem existing_name_takes_inode : ∃ s t, ext2Init (Fs.boot markedVolume) = .ok ((), s) ∧
    ext2Mknod 0 [SLASH, F] 0x81a4#32 0 s = .ok (none, t) ∧ ¬ s.Unchanged t := by
  have mounted : ext2Init (Fs.boot markedVolume) = .ok ((), markedFs) := Fs.boot_mounts (by decide +kernel)
  have marked : ((ext2Mknod 0 [SLASH, F] 0x81a4#32 0 markedFs).toOption.any fun r => decide (r.1 = none ∧
      r.2.disk r.2.sb.inode_bitmap 0 = 15#8 ∧ markedFs.disk markedFs.sb.inode_bitmap 0 = 7#8)) = true := by decide +kernel
  cases run : ext2Mknod 0 [SLASH, F] 0x81a4#32 0 markedFs with
  | error e =>
    rw [run] at marked
    cases marked
  | ok r =>
    obtain ⟨node, t⟩ := r
    rw [run] at marked
    obtain ⟨rfl, now, before⟩ := of_decide_eq_true marked
    refine ⟨markedFs, t, mounted, run, fun same => ?_⟩
    rw [same.inode_bitmap, before] at now
    cases now

end Aarch64Os.Kernel
