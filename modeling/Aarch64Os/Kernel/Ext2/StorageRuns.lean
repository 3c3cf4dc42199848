import Aarch64Os.Kernel.Ext2.Storage

/-!
# Calls that keep every byte stored (`kernel/ext2.c`)

Lookups load inodes of the table, and an allocation takes one that the bitmap has left. A new inode
is put where the blocks it needs are there. In any sequence of such calls every inode stays backed.
-/

namespace Aarch64Os.Kernel
set_option autoImplicit false
open Base

/-- The inodes that either walk loads are inodes of the table. -/
def WalkNumbers (last : List Chr → NameBuf → Prop) : Nat → Option InodeId → List Chr → NameBuf → Fs → Prop
  | 0, _, _, _, _ => True
  | left + 1, pi, path, name, s =>
    match skippath path name, pi with
    | .ok (name, some path), some p =>
      last path name ∨ S_ISDIR (s.itable p).mode = false ∨ After (ext2SearchDir p name.mem) s fun inum t => 0 ≤ inum →
        t.sb.Numbers (BitVec.ofInt 32 inum) ∧
          After (ext2GetInode (BitVec.ofInt 32 inum)) t fun next u => WalkNumbers last left next path NameBuf.zero u
    | _, _ => True

/-- The same for a lookup, which starts at the root or at a directory in use. -/
def PathNumbers (last : List Chr → NameBuf → Prop) (cwd : InodeId) (path : List Chr) (s : Fs) : Prop :=
  (if path.head? = some SLASH then s.sb.Numbers EXT2_ROOT_INO else (s.itable cwd).ref ≠ 0) ∧
    After (pathStart cwd path) s fun ino t => WalkNumbers last (path.length + 1) ino path NameBuf.zero t

/-- `t` is sound behind `s`, with the same free blocks, and the inode that was found is one of the table. -/
structure Fs.Finds (s t : Fs) (r : Option InodeId) : Prop where
  stays : s.Stays t
  bitmap : t.blockBitmap = s.blockBitmap
  number : ∀ i, r = some i → t.sb.Numbers (t.itable i).inum

section Lookups
variable {s t u : Fs} {r : Option InodeId} {inum : BitVec 32} {i : InodeId} {last : List Chr → NameBuf → Prop}

theorem Fs.Finds.before (found : t.Finds u r) (stays : s.Stays t) (bitmap : t.blockBitmap = s.blockBitmap) : s.Finds u r where
  stays := stays.trans found.stays
  bitmap := found.bitmap.trans bitmap
  number := found.number

/-- `ext2_get_inode` fills an entry with the blocks and the size on the disk. -/
theorem Fs.Sound.getInode (h : s.Sound) (number : s.sb.Numbers inum) :
    After (ext2GetInode inum) s fun r t => s.Finds t r := by
  refine (mirrored_ext2GetInode s inum).mono ?_
  rintro r t ⟨disk, sb, mirrored, filled⟩
  have bitmap : t.blockBitmap = s.blockBitmap := by
    unfold Fs.blockBitmap
    rw [disk, sb]
  have writes : ∀ {v : Fs}, v.disk = s.disk → v.sb = s.sb → v.Writes t fun _ => False := fun same same' =>
    ⟨sb.trans same'.symm, fun a _ => by rw [disk, same]⟩
  split at filled
  case h_1 =>
    obtain ⟨rfl, itable⟩ := filled
    have stays := (h.frame (mirrored h.mirrored) itable (writes rfl rfl) fun _ => False.elim).1
    exact ⟨stays, bitmap, fun i none => nomatch none⟩
  case h_2 i held slot =>
    obtain ⟨rfl, data, shows, itable⟩ := filled
    obtain rfl := shows h.mirrored (h.laid.table inum number).1
    -- the entry counts what the record counts
    have set := h.setInode (i := i) (f := fun x => x.fillFrom inum (s.disk (s.sb.recordBlock inum)) (s.sb.recordOff inum))
      (y := s.inodeOn inum) (.inr ⟨inum, number, rfl⟩) ⟨rfl, fun _ _ => rfl⟩
      ((h.backed _ (.inr ⟨inum, number, rfl⟩)).keep rfl (fun _ => id) (fun _ => rfl) ⟨⟨rfl, fun _ _ => rfl⟩, le_rfl⟩)
      (fun _ => number) fun _ => number
    have stays := (set.sound.frame (mirrored h.mirrored) itable (writes rfl rfl) fun _ => False.elim).1
    refine ⟨set.trans stays, bitmap, ?_⟩
    rintro _ ⟨⟩
    rw [itable, Function.update_self, sb]
    exact number

/-- One round of either walk. `done` is what it returns, `of` the inode in that, and `go` the next round. -/
theorem Fs.Sound.round [∀ path name, Decidable (last path name)] {α : Type} (of : α → Option InodeId)
    {done : Option InodeId → NameBuf → FsM α} {go : Option InodeId → List Chr → FsM α} {left : Nat}
    (dones : ∀ r name t, After (done r name) t fun a u => u = t ∧ of a = r)
    (goes : ∀ next path t, t.Sound → (∀ i, next = some i → t.sb.Numbers (t.itable i).inum) →
      WalkNumbers last left next path NameBuf.zero t → After (go next path) t fun a u => t.Finds u (of a))
    (h : s.Sound) (pi : Option InodeId) (path : List Chr) (name : NameBuf) (start : ∀ i, pi = some i → s.sb.Numbers (s.itable i).inum)
    (numbers : WalkNumbers last (left + 1) pi path name s) :
    After (do
      let (name, path) ← liftM (skippath path name)
      match path, pi with
      | none, _ => done none name
      | some path, pi =>
        if last path name then done pi name
        else
          match pi with
          | none => throw .undefined
          | some pi => do
            let s ← get
            if ! S_ISDIR (s.itable pi).mode then done (some pi) name
            else
              let inum ← ext2SearchDir pi name.mem
              if inum < 0 then done none name
              else
                let next ← ext2GetInode (BitVec.ofInt 32 inum)
                go next path) s fun a t => s.Finds t (of a) := by
  have ended : ∀ {t : Fs} r name, s.Stays t → t.blockBitmap = s.blockBitmap → (∀ i, r = some i → t.sb.Numbers (t.itable i).inum) →
      After (done r name) t fun a u => s.Finds u (of a) := by
    intro t r name stays bitmap number
    refine (dones r name t).mono ?_
    rintro a _ ⟨rfl, rfl⟩
    exact ⟨stays, bitmap, number⟩
  have nothing : ∀ {t : Fs} i, (none : Option InodeId) = some i → t.sb.Numbers (t.itable i).inum := fun _ never => nomatch never
  unfold WalkNumbers at numbers
  cases skip : skippath path name with
  | error e => exact After.bind (after_lift s _) fun a t found => nomatch found.1
  | ok r =>
  obtain ⟨name', path'⟩ := r
  refine After.step (FsM.lift_ok rfl) ?_
  cases path' with
  | none => exact ended none name' (.refl h) rfl nothing
  | some path' =>
  cases pi with
  | none =>
    dsimp only
    split
    · exact ended none name' (.refl h) rfl nothing
    · exact After.throw _
  | some p =>
  rw [skip] at numbers
  dsimp only at numbers ⊢
  split
  case isTrue => exact ended (some p) name' (.refl h) rfl start
  case isFalse more =>
  refine After.step FsM.get_run ?_
  split
  case isTrue => exact ended (some p) name' (.refl h) rfl start
  case isFalse isDir =>
  have search := (numbers.resolve_left more).resolve_left (by simpa using isDir)
  refine After.bind ((search.and (quiet_ext2SearchDir s p _)).and (steady_ext2SearchDir s p _)) ?_
  rintro inum t ⟨⟨named, quiet⟩, steady⟩
  have searched := h.quiet quiet steady
  split
  case isTrue => exact ended none name' searched quiet.blockBitmap nothing
  case isFalse nonneg =>
  obtain ⟨number, rest⟩ := named (by omega)
  refine After.bind (rest.and (searched.sound.getInode number)) ?_
  rintro next u ⟨walk, loaded⟩
  have found := loaded.before searched quiet.blockBitmap
  refine (goes next path' u loaded.stays.sound loaded.number walk).mono ?_
  exact fun a v more => more.before found.stays found.bitmap

theorem Fs.Sound.traverseInode (left : Nat) : ∀ {s : Fs} (pi : Option InodeId) (path : List Chr) (name : NameBuf), s.Sound →
    (∀ i, pi = some i → s.sb.Numbers (s.itable i).inum) → WalkNumbers AtEnd left pi path name s →
      After (traverseInode left pi path name) s fun r t => s.Finds t r := by
  induction left with
  | zero => exact fun pi path name h start numbers => After.throw _
  | succ left ih =>
    intro s pi path name h start numbers
    have dones : ∀ (r : Option InodeId) (_ : NameBuf) (t : Fs), After (pure r : FsM (Option InodeId)) t fun a u => u = t ∧ a = r :=
      fun _ _ _ => After.pure ⟨rfl, rfl⟩
    exact h.round id dones (fun next path t sound number => ih next path NameBuf.zero sound number) pi path name start numbers

theorem Fs.Sound.traverseInodeParent (left : Nat) : ∀ {s : Fs} (pi : Option InodeId) (path : List Chr) (name : NameBuf), s.Sound →
    (∀ i, pi = some i → s.sb.Numbers (s.itable i).inum) → WalkNumbers AtLast left pi path name s →
      After (traverseInodeParent left pi path name) s fun r t => s.Finds t r.1 := by
  induction left with
  | zero => exact fun pi path name h start numbers => After.throw _
  | succ left ih =>
    intro s pi path name h start numbers
    have dones : ∀ (r : Option InodeId) (name : NameBuf) (t : Fs),
        After (pure (r, name) : FsM (Option InodeId × NameBuf)) t fun a u => u = t ∧ a.1 = r := fun _ _ _ => After.pure ⟨rfl, rfl⟩
    exact h.round Prod.fst dones (fun next path t sound number => ih next path NameBuf.zero sound number) pi path name start numbers

/-- A walk from where its path starts. -/
theorem Fs.Sound.walk (h : s.Sound) {α : Type} (of : α → Option InodeId) {go : Option InodeId → FsM α} {cwd : InodeId} {path : List Chr}
    (numbers : PathNumbers last cwd path s)
    (goes : ∀ ino t, t.Sound → (∀ i, ino = some i → t.sb.Numbers (t.itable i).inum) →
      WalkNumbers last (path.length + 1) ino path NameBuf.zero t → After (go ino) t fun a u => t.Finds u (of a)) :
    After (pathStart cwd path >>= go) s fun a t => s.Finds t (of a) := by
  obtain ⟨start, walks⟩ := numbers
  have begins : After (pathStart cwd path) s fun ino t => s.Finds t ino := by
    unfold pathStart
    split
    case isTrue root =>
      rw [if_pos root] at start
      exact h.getInode start
    case isFalse relative =>
      rw [if_neg relative] at start
      refine After.pure ⟨.refl h, rfl, ?_⟩
      rintro _ ⟨⟩
      exact h.inum cwd start
  refine After.bind (begins.and walks) ?_
  rintro ino t ⟨found, walk⟩
  exact (goes ino t found.stays.sound found.number walk).mono fun a u rest => rest.before found.stays found.bitmap

theorem Fs.Sound.path2inode (h : s.Sound) {cwd : InodeId} {path : List Chr} (numbers : PathNumbers AtEnd cwd path s) :
    After (ext2Path2inode cwd path) s fun r t => s.Finds t r :=
  h.walk id numbers fun ino _ sound number => sound.traverseInode _ ino path NameBuf.zero number

theorem Fs.Sound.path2inodeParent (h : s.Sound) {cwd : InodeId} {path : List Chr} (numbers : PathNumbers AtLast cwd path s) :
    After (ext2Path2inodeParent cwd path) s fun r t => s.Finds t r.1 :=
  h.walk Prod.fst numbers fun ino _ sound number => sound.traverseInodeParent _ ino path NameBuf.zero number

end Lookups

/-- `ext2_alloc_inode` finds an inode of the table. -/
def Fs.FreeNumber (s : Fs) : Prop :=
  ∀ num, findFreeIno s.sb.bsize (s.disk s.sb.inode_bitmap) = .ok num → 0 ≤ num → s.sb.Numbers (BitVec.ofInt 32 num)

/-- How many blocks a new inode in entry `i` and its entry in the parent `dir` take. -/
def Fs.needs (s : Fs) (i dir : InodeId) (mode : BitVec 32) : Nat :=
  (if IsDirMode mode ∧ (s.itable i).nblock = 0 then 1 else 0) + if (s.itable dir).nblock = 0 then 1 else 0

/-- An inode has a first block for entries, or is empty and gets one. -/
def Fs.StartsDir (s : Fs) (x : Inode) : Prop := x.nblock = 0 ∧ x.slot 0 = 0 ∨ x.nblock ≠ 0 ∧ s.Granted (x.slot 0)

/-- A new inode is one of the table, and there are the blocks that it and its parent need. -/
structure Fs.StoresNew (s : Fs) (dir : InodeId) (mode : BitVec 32) : Prop where
  number : s.FreeNumber
  parent : (s.itable dir).nblock = 0 → (s.itable dir).slot 0 = 0
  place : ∀ num i held, findFreeIno s.sb.bsize (s.disk s.sb.inode_bitmap) = .ok num → s.inodeSlot (BitVec.ofInt 32 num) = some (i, held) →
    (IsDirMode mode → s.StartsDir (s.itable i)) ∧ s.Grants (s.needs i dir mode)

/-- The entries of the table count the same blocks. -/
def Fs.SameBlocks (s t : Fs) : Prop := ∀ i, (t.itable i).nblock = (s.itable i).nblock ∧ (t.itable i).slot = (s.itable i).slot

section NewInodes
variable {s t : Fs} {dir ino i : InodeId} {mode dev : BitVec 32} {f : Inode → Inode}

/-- A place for a new inode, after a change that keeps blocks and hands out none. -/
theorem Fs.SameBlocks.place (same : s.SameBlocks t) (stays : s.Stays t) (bitmap : t.blockBitmap = s.blockBitmap)
    (place : (IsDirMode mode → s.StartsDir (s.itable i)) ∧ s.Grants (s.needs i dir mode)) :
    (IsDirMode mode → t.StartsDir (t.itable i)) ∧ t.Grants (t.needs i dir mode) := by
  constructor
  · intro isDir
    unfold Fs.StartsDir
    rw [(same i).1, (same i).2]
    rcases place.1 isDir with empty | ⟨some, granted⟩
    · exact .inl empty
    · exact .inr ⟨some, granted.stays stays⟩
  · have needs : t.needs i dir mode = s.needs i dir mode := by
      unfold Fs.needs
      rw [(same i).1, (same dir).1]
    rw [needs]
    exact place.2.stays stays bitmap

theorem Fs.SameBlocks.setInode (s : Fs) (i : InodeId) (nblock : (f (s.itable i)).nblock = (s.itable i).nblock)
    (slot : (f (s.itable i)).slot = (s.itable i).slot) : s.SameBlocks (s.setInode i f) := by
  intro j
  rcases s.setInode_entry i j f with ⟨rfl, entry⟩ | ⟨-, entry⟩
  · rw [entry]
    exact ⟨nblock, slot⟩
  · rw [entry]
    exact ⟨rfl, rfl⟩

theorem Fs.SameBlocks.trans {u : Fs} (first : s.SameBlocks t) (second : t.SameBlocks u) : s.SameBlocks u := fun i =>
  ⟨(second i).1.trans (first i).1, (second i).2.trans (first i).2⟩

/-- `find_inode` takes a reference to an entry, which keeps the blocks it had. -/
theorem Fs.Sound.findInode (h : s.Sound) {inum : BitVec 32} (number : s.sb.Numbers inum) :
    After (findInode inum) s fun r t => s.Finds t r ∧ s.SameBlocks t ∧ ∀ i, r = some i → ∃ held, s.inodeSlot inum = some (i, held) := by
  have takes : ∀ (g : Inode → Inode) i held, s.inodeSlot inum = some (i, held) → (g (s.itable i)).inum = inum →
      (g (s.itable i)).size = (s.itable i).size → (g (s.itable i)).blocks = (s.itable i).blocks →
      (g (s.itable i)).block = (s.itable i).block → s.Finds (s.setInode i g) (some i) ∧ s.SameBlocks (s.setInode i g) ∧
        ∀ j, some i = some j → ∃ held, s.inodeSlot inum = some (j, held) := by
    intro g i held slot own size blocks block
    have within : (g (s.itable i)).Within (s.itable i) := ⟨⟨blocks, fun k _ => congrFun block k⟩, (congrArg BitVec.toNat size).le⟩
    have backed := (h.backed _ (.inl ⟨i, rfl⟩)).keep rfl (fun _ => id) (fun _ => rfl) within
    have stays := h.setInode (.inl ⟨i, rfl⟩) within.toCounts backed (fun _ => own ▸ number) fun _ => own ▸ number
    have same : s.SameBlocks (s.setInode i g) := by
      apply Fs.SameBlocks.setInode s i within.toCounts.nblock
      unfold Inode.slot
      rw [block]
    refine ⟨⟨stays, rfl, ?_⟩, same, ?_⟩
    · rintro _ ⟨⟩
      rw [Fs.setInode_self, own]
      exact number
    · rintro _ ⟨⟩
      exact ⟨held, slot⟩
  intro r t run
  unfold Kernel.findInode at run
  split at run
  case h_1 i slot =>
    cases run
    exact takes _ i true slot (Fs.inodeSlot_held slot) rfl rfl rfl
  case h_2 i slot =>
    cases run
    exact takes _ i false slot rfl rfl rfl rfl
  case h_3 =>
    cases run
    exact ⟨⟨.refl h, rfl, fun _ never => nomatch never⟩, fun _ => ⟨rfl, rfl⟩, fun _ never => nomatch never⟩

/-- `ext2_alloc_inode` takes a number and an entry. -/
theorem Fs.Sound.allocInode (h : s.Sound) (stores : s.StoresNew dir mode) :
    After ext2AllocInode s fun r t => s.Finds t r ∧ s.SameBlocks t ∧ ∀ i, r = some i →
      (IsDirMode mode → t.StartsDir (t.itable i)) ∧ t.Grants (t.needs i dir mode) := by
  unfold ext2AllocInode
  refine After.bind ((mirrored_allocBit h.mirrored Superblock.inode_bitmap (by decide) h.laid.inode_bitmap).and (steady_allocBit s _ 1)) ?_
  rintro num t ⟨⟨sb, itable, found, changed⟩, steady⟩
  have writes : s.Writes t (· = s.sb.inode_bitmap) := by
    refine ⟨sb, fun a ne => ?_⟩
    rcases changed with ⟨-, disk⟩ | ⟨k, -, -, -, disk⟩
    · rw [disk]
    · rw [disk, Function.update_of_ne ne]
  obtain ⟨stays, bitmap⟩ := h.frame (steady.mirrored h.mirrored) itable writes fun _ => .inl
  have same : s.SameBlocks t := fun i => by rw [itable]; exact ⟨rfl, rfl⟩
  split
  case isTrue => exact After.pure ⟨⟨stays, bitmap, fun _ never => nomatch never⟩, same, fun _ never => nomatch never⟩
  case isFalse nonneg =>
  have number : t.sb.Numbers (BitVec.ofInt 32 num) := by
    rw [sb]
    exact stores.number num found (by omega)
  refine (stays.sound.findInode number).mono ?_
  rintro r u ⟨finds, kept, place⟩
  have total := finds.before stays bitmap
  refine ⟨total, same.trans kept, fun i eq => ?_⟩
  obtain ⟨held, slot⟩ := place i eq
  have slot' : s.inodeSlot (BitVec.ofInt 32 num) = some (i, held) := by
    unfold Fs.inodeSlot at slot ⊢
    rwa [itable] at slot
  exact (same.trans kept).place total.stays total.bitmap (stores.place num i held found slot')

/-- What the type of a new inode asks for. -/
theorem Fs.Sound.newByType (h : s.Sound) (number : s.sb.Numbers (s.itable ino).inum) (parent : (s.itable dir).nblock = 0 → (s.itable dir).slot 0 = 0)
    (place : (IsDirMode mode → s.StartsDir (s.itable ino)) ∧ s.Grants (s.needs ino dir mode)) :
    After (newByType ino dir mode) s fun r t => s.Stays t ∧ (r = true → t.HasPlace (t.itable dir)) := by
  obtain ⟨starts, grants⟩ := place
  unfold Kernel.newByType
  split
  case isTrue type =>
    have isDir : IsDirMode mode := type
    refine h.linkDots number (starts isDir) parent ?_
    unfold Fs.needs at grants
    simpa only [isDir, true_and] using grants
  case isFalse type =>
    have isDir : ¬ IsDirMode mode := type
    have has : s.HasPlace (s.itable dir) := fun blank => by
      refine ⟨parent blank, ?_⟩
      unfold Fs.needs at grants
      simpa only [isDir, false_and, if_false, if_pos blank, Nat.zero_add] using grants
    refine After.step (FsM.modify_run _) ?_
    apply After.pure
    split
    · -- a device node has size 0
      have none := h.setInode_within (i := ino) (f := fun x => { x with size := 0 }) ⟨⟨rfl, fun _ _ => rfl⟩, Nat.zero_le _⟩ rfl rfl
      have same : s.SameBlocks (s.setInode ino fun x => { x with size := 0 }) := .setInode s ino rfl rfl
      refine ⟨none, fun _ blank => ?_⟩
      rw [(same dir).1] at blank
      rw [(same dir).2]
      exact ⟨(has blank).1, (has blank).2.stays none rfl⟩
    · exact ⟨.refl h, fun _ => has⟩

/-- The link of a new inode, and the records of both. -/
theorem Fs.Sound.linkNew (h : s.Sound) (name : List (BitVec 8)) (number : s.sb.Numbers (s.itable ino).inum)
    (number' : s.sb.Numbers (s.itable dir).inum) (place : s.HasPlace (s.itable dir)) :
    After (linkNew name ino dir) s fun _ t => s.Stays t := by
  unfold Kernel.linkNew
  refine After.step FsM.get_run ?_
  refine After.bind (after_lift s _) ?_
  rintro file_type _ ⟨-, rfl⟩
  refine After.bind (h.dirlink number' place) ?_
  rintro r t ⟨linked, -⟩
  split
  · exact After.pure linked
  refine After.bind (linked.sound.sync (linked.numbers ino number)) ?_
  rintro _ u ⟨synced, -⟩
  have both := linked.trans synced
  refine After.bind (both.sound.sync (both.numbers dir number')) ?_
  rintro _ v ⟨synced', -⟩
  exact After.pure (both.trans synced')

/-- **A new inode** that finds the blocks it needs. -/
theorem Fs.Sound.newInode (h : s.Sound) (name : List (BitVec 8)) (number : s.sb.Numbers (s.itable dir).inum) (stores : s.StoresNew dir mode) :
    After (ext2NewInode name dir mode dev) s fun _ t => s.Stays t := by
  rw [ext2NewInode_eq]
  refine After.bind (h.allocInode stores) ?_
  rintro r t ⟨found, same, place⟩
  cases r with
  | none => exact After.pure found.stays
  | some ino =>
  have own := found.number ino rfl
  refine After.step (FsM.modify_run _) ?_
  have set := found.stays.sound.setInode_within (i := ino) (f := fun x => x.asNew mode dev) ⟨⟨rfl, fun _ _ => rfl⟩, le_rfl⟩ rfl rfl
  have same' : t.SameBlocks (t.setInode ino fun x => x.asNew mode dev) := .setInode t ino rfl rfl
  have total := found.stays.trans set
  have kept := same.trans same'
  have parent : ∀ {u : Fs}, s.SameBlocks u → (u.itable dir).nblock = 0 → (u.itable dir).slot 0 = 0 := by
    intro u same blank
    rw [(same dir).1] at blank
    rw [(same dir).2]
    exact stores.parent blank
  refine After.bind (total.sound.newByType (set.numbers ino own) (parent kept) (same'.place set rfl (place ino rfl))) ?_
  rintro dots u ⟨typed, has⟩
  have total' := total.trans typed
  cases dots with
  | false => exact After.pure total'
  | true =>
  have linked := total'.sound.linkNew name ((set.trans typed).numbers ino own) (total'.numbers dir number) (has rfl)
  exact linked.mono fun _ v stays => total'.trans stays

end NewInodes

/-- `mknod` comes by inodes of the table, and to a directory where the new one can be stored. -/
def StoresMknod (cwd : InodeId) (path : List Chr) (mode : BitVec 32) (s : Fs) : Prop :=
  PathNumbers AtLast cwd path s ∧
    After (ext2Path2inodeParent cwd path) s fun r t => ∀ dir, r.1 = some dir → t.StoresNew dir mode

theorem Fs.Sound.mknod {s : Fs} (h : s.Sound) {cwd : InodeId} {path : List Chr} {mode dev : BitVec 32}
    (stores : StoresMknod cwd path mode s) : After (ext2Mknod cwd path mode dev) s fun _ t => s.Stays t := by
  unfold ext2Mknod
  refine After.bind ((h.path2inodeParent stores.1).and stores.2) ?_
  rintro ⟨pdir, namebuf⟩ t ⟨found, place⟩
  cases pdir with
  | none => exact After.pure found.stays
  | some dir =>
    refine (found.stays.sound.newInode _ (found.number dir rfl) (place dir rfl)).mono ?_
    exact fun _ u made => found.stays.trans made

/-- The call loads inodes of the table only, and what it adds to sizes finds its blocks. -/
def Ext2Call.Stores : Ext2Call → Fs → Prop
  | lookup cwd path, s => PathNumbers AtEnd cwd path s
  | load inum, s => s.sb.Numbers inum
  | read .., _ => True
  | write ino _ off size, s => s.StoresWrite ino off size
  | mkdir cwd path, s => StoresMknod cwd path (S_IFDIR.setWidth 32) s
  | mknod cwd path mode _, s => StoresMknod cwd path mode s

/-- One call. -/
theorem Ext2Call.stays {s t : Fs} {call : Ext2Call} (h : s.Sound) (stores : call.Stores s) (step : ext2Calls.step s call = some t) :
    s.Stays t := by
  have drop : ∀ {α : Type} {f : FsM α}, (After f s fun _ u => s.Stays u) → After (dropResult f) s fun _ u => s.Stays u :=
    fun after => after.bind fun _ u stays => After.pure stays
  have after : After call.run s fun _ u => s.Stays u := by
    cases call with
    | lookup cwd path => exact drop ((h.path2inode stores).mono fun _ _ found => found.stays)
    | load inum => exact drop ((h.getInode stores).mono fun _ _ found => found.stays)
    | read ino off size =>
      exact drop (((quiet_ext2ReadInode s ino off size).and (steady_ext2ReadInode s ino off size)).mono fun _ _ kept => h.quiet kept.1 kept.2)
    | write ino buf off size => exact drop (h.write buf stores)
    | mkdir cwd path => exact drop (h.mknod stores)
    | mknod cwd path mode dev => exact drop (h.mknod stores)
  obtain ⟨⟨_, u⟩, run, rfl⟩ := Option.map_eq_some_iff.1 step
  cases result : call.run s with
  | error e =>
    rw [result] at run
    cases run
  | ok r =>
    rw [result] at run
    cases run
    exact after _ _ result

/-- The small volume with three inodes, and the first 21 blocks marked. -/
def storeVolume (bno : BitVec 32) : Block := fun i =>
  if bno = 1#32 ∧ (i : Nat) = 40 then 3#8
  else if bno = 2#32 ∧ (i : Nat) = 4 then 5#8
  else if bno = 3#32 then if (i : Nat) < 2 then 0xff#8 else if (i : Nat) = 2 then 0x1f#8 else 0#8
  else if bno = 4#32 ∧ (i : Nat) = 133 then 4#8
  else treeVolume bno i

/-- That volume, mounted, with its file in the first entry of the inode table. -/
def storeFs : Fs :=
  let s := { Fs.boot storeVolume with sb := superblockOf (storeVolume 1#32) (storeVolume 2#32) }
  s.setInode 0 fun x => x.fillFrom 3#32 (storeVolume 4#32) 256

theorem storeFs_numbers {n : BitVec 32} (h : storeFs.sb.Numbers n) : n = 1#32 ∨ n = 2#32 ∨ n = 3#32 := by
  obtain ⟨pos, le⟩ := h
  have three : storeFs.sb.inodes_per_group.toNat = 3 := by decide +kernel
  rw [three] at le
  have zero : n.toNat ≠ 0 := fun zero => pos (BitVec.eq_of_toNat_eq zero)
  have cases : n.toNat = 1 ∨ n.toNat = 2 ∨ n.toNat = 3 := by omega
  exact cases.imp BitVec.eq_of_toNat_eq (Or.imp BitVec.eq_of_toNat_eq BitVec.eq_of_toNat_eq)

/-- Its inodes are empty, or the root. -/
theorem storeFs_inodes {x : Inode} (h : storeFs.Inodes x) :
    x.nblock = 0 ∧ x.size = 0 ∨ x.nblock = 1 ∧ x.size = 1024#32 ∧ x.block 0 = 20#32 := by
  rcases h with ⟨i, rfl⟩ | ⟨n, number, rfl⟩
  · refine .inl ?_
    by_cases zero : i = 0
    · subst zero
      exact ⟨by decide +kernel, by decide +kernel⟩
    · have other : storeFs.itable i = Inode.zero := Function.update_of_ne zero ..
      rw [other]
      exact ⟨by decide, rfl⟩
  · rcases storeFs_numbers number with rfl | rfl | rfl
    · exact .inl ⟨by decide +kernel, by decide +kernel⟩
    · exact .inr ⟨by decide +kernel, by decide +kernel, by decide +kernel⟩
    · exact .inl ⟨by decide +kernel, by decide +kernel⟩

theorem storeFs_kept {a : BitVec 32} (h : storeFs.Kept a) : a = 3#32 ∨ a = 5#32 ∨ a = 4#32 := by
  have table : storeFs.sb.recordBlock 1#32 = 4#32 ∧ storeFs.sb.recordBlock 2#32 = 4#32 ∧ storeFs.sb.recordBlock 3#32 = 4#32 := by
    decide +kernel
  rcases h with (rfl | rfl | ⟨n, number, rfl⟩) | ⟨x, mem, big, -⟩
  · exact .inl (by decide +kernel)
  · exact .inr (.inl (by decide +kernel))
  · refine .inr (.inr ?_)
    rcases storeFs_numbers number with rfl | rfl | rfl
    · exact table.1
    · exact table.2.1
    · exact table.2.2
  · rcases storeFs_inodes mem with ⟨none, -⟩ | ⟨one, -⟩
    · omega
    · omega

theorem storeFs_sound : storeFs.Sound where
  mirrored := ⟨fun _ _ => rfl, fun _ used => absurd rfl used, fun _ _ used => absurd rfl used⟩
  laid := by
    refine ⟨⟨by decide +kernel, by decide +kernel, by decide +kernel⟩, by decide +kernel, by decide +kernel, by decide +kernel, ?_⟩
    intro n number
    rcases storeFs_numbers number with rfl | rfl | rfl
    · decide +kernel
    · decide +kernel
    · decide +kernel
  inum i used := by
    by_cases zero : i = 0
    · subst zero
      have number : (storeFs.itable 0).inum = 3#32 := by decide +kernel
      rw [number]
      exact ⟨by decide, by decide +kernel⟩
    · have other : storeFs.itable i = Inode.zero := Function.update_of_ne zero ..
      rw [other] at used
      exact absurd rfl used
  indirect x mem big := by
    rcases storeFs_inodes mem with ⟨none, -⟩ | ⟨one, -⟩
    · omega
    · omega
  apart a data kept := by
    obtain ⟨-, x, mem, j, lt, mapped⟩ := data
    rcases storeFs_inodes mem with ⟨none, -⟩ | ⟨one, -, block⟩
    · omega
    · obtain rfl : j = 0 := by omega
      have first : storeFs.mapOf x 0 = some 20#32 := by
        rw [← block]
        exact dif_pos (by decide)
      rw [first] at mapped
      cases mapped
      rcases storeFs_kept kept with eq | eq | eq
      · exact absurd eq (by decide)
      · exact absurd eq (by decide)
      · exact absurd eq (by decide)
  backed x mem := by
    have bsize : storeFs.sb.bsize.toNat = 1024 := by decide +kernel
    rcases storeFs_inodes mem with ⟨-, size⟩ | ⟨one, size, block⟩
    · refine ⟨?_, fun j inside => ?_⟩
      · rw [size]
        exact Nat.zero_le _
      · rw [size] at inside
        exact absurd inside (Nat.not_lt_zero _)
    · have value : x.size.toNat = 1024 := congrArg BitVec.toNat size
      refine ⟨?_, fun j inside => ?_⟩
      · rw [value, one, bsize]
      · rw [value, bsize] at inside
        obtain rfl : j = 0 := by omega
        refine ⟨20#32, ?_, by decide, 19, by decide +kernel, by decide +kernel⟩
        rw [← block]
        exact dif_pos (by decide)

end Aarch64Os.Kernel
