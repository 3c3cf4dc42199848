import Aarch64Os.Kernel.BufMirrored
import Aarch64Os.Kernel.Ext2.Balance
import Aarch64Os.Kernel.Ext2.Effects

/-!
# What stays of the inode table (`kernel/ext2.c`)

Searching, reading, growing and writing change the sizes and blocks of inodes in memory, and the
disk through its buffers. No entry of the table gets another number, type, device or count by
them, and the buffers go on mirroring the disk.
-/

namespace Aarch64Os.Kernel
set_option autoImplicit false
open Base

/-- The same number, type, device and count of references. -/
structure Inode.Alike (x y : Inode) : Prop where
  inum : x.inum = y.inum
  mode : x.mode = y.mode
  major : x.major = y.major
  ref : x.ref = y.ref

/-- The superblock is the same, each entry of the inode table is alike, and buffers go on mirroring the disk. -/
structure Fs.Steady (s t : Fs) : Prop where
  sb : t.sb = s.sb
  mirrored : s.Mirrored → t.Mirrored
  entry : ∀ i, (t.itable i).Alike (s.itable i)

theorem Inode.Alike.refl (x : Inode) : x.Alike x := ⟨rfl, rfl, rfl, rfl⟩

theorem Inode.Alike.trans {x y z : Inode} (first : x.Alike y) (second : y.Alike z) : x.Alike z where
  inum := first.inum.trans second.inum
  mode := first.mode.trans second.mode
  major := first.major.trans second.major
  ref := first.ref.trans second.ref

namespace Fs.Steady
variable {s t u : Fs} {b : BufId} {i : InodeId} {f : Inode → Inode}

theorem refl (s : Fs) : s.Steady s := ⟨rfl, id, fun _ => .refl _⟩

theorem trans (first : s.Steady t) (second : t.Steady u) : s.Steady u where
  sb := second.sb.trans first.sb
  mirrored h := second.mirrored (first.mirrored h)
  entry i := (second.entry i).trans (first.entry i)

theorem of_itable (sb : t.sb = s.sb) (mirrored : s.Mirrored → t.Mirrored) (same : t.itable = s.itable) : s.Steady t where
  sb := sb
  mirrored := mirrored
  entry i := by rw [same]; exact .refl _

/-- An entry changes in other fields. -/
theorem setInode (alike : (f (s.itable i)).Alike (s.itable i)) : s.Steady (s.setInode i f) where
  sb := rfl
  mirrored h := ⟨h.clear, h.shows, h.once⟩
  entry j := by
    show (Function.update s.itable i (f (s.itable i)) j).Alike (s.itable j)
    rcases eq_or_ne j i with rfl | ne
    · rw [Function.update_self]
      exact alike
    · rw [Function.update_of_ne ne]
      exact .refl _

theorem stored (held : (s.bcache b).ref ≠ 0) (data : Block) : s.Steady (s.stored b data) :=
  of_itable rfl (fun h => h.stored held data) rfl

end Fs.Steady

section Reads

theorem steady_bioRead (s : Fs) (bno : BitVec 32) : After (bioRead bno) s fun b t => s.Steady t ∧ (t.bcache b).ref ≠ 0 := by
  refine ((quiet_bioRead s bno).and (mirrored_bioRead s bno)).mono ?_
  rintro b t ⟨⟨quiet, -⟩, held, mirrored⟩
  exact ⟨.of_itable quiet.sb (fun h => (mirrored h).1) quiet.itable, held⟩

theorem steady_bioFree (s : Fs) (b : BufId) : After (bioFree b) s fun _ t => s.Steady t := by
  refine ((quiet_bioFree s b).and (mirrored_bioFree s b)).mono ?_
  rintro _ t ⟨quiet, mirrored⟩
  exact .of_itable quiet.sb mirrored quiet.itable

theorem steady_readIndirectBlock (s : Fs) (map : Block) (bnum : Nat) :
    After (readIndirectBlock map bnum) s fun _ t => s.Steady t := by
  unfold readIndirectBlock
  split
  · exact (steady_bioRead s _).mono fun _ _ read => read.1
  · exact After.throw _

theorem steady_ext2InodeBlock (s : Fs) (ino : InodeId) (bi : Nat) :
    After (ext2InodeBlock ino bi) s fun b t => s.Steady t ∧ (t.bcache b).ref ≠ 0 := by
  have steady : After (ext2InodeBlock ino bi) s fun _ t => s.Steady t := by
    unfold ext2InodeBlock
    refine After.step FsM.get_run ?_
    split
    · exact (steady_bioRead s _).mono fun _ _ read => read.1
    · refine After.bind (steady_bioRead s _) ?_
      rintro map t ⟨first, -⟩
      refine After.step (bufData_runs t map) ?_
      refine After.bind (steady_readIndirectBlock t _ bi) ?_
      intro b u second
      refine After.bind (steady_bioFree u map) ?_
      exact fun _ v third => After.pure ((first.trans second).trans third)
  refine (steady.and (takes_ext2InodeBlock s ino bi)).mono ?_
  rintro b t ⟨steady, taken⟩
  refine ⟨steady, ?_⟩
  have count : (t.bcache b).ref = (s.bcache b).ref + 1 := by simpa [Fs.refs] using congrFun taken b
  omega

theorem steady_searchBlocks (dir : InodeId) (name : List (BitVec 8)) (left : Nat) : ∀ (s : Fs) (i : Nat),
    After (searchBlocks dir name left i) s fun _ t => s.Steady t := by
  induction left with
  | zero => exact fun s i => After.pure (.refl s)
  | succ left ih =>
    intro s i
    unfold searchBlocks
    refine After.step FsM.get_run ?_
    refine After.bind (steady_ext2InodeBlock s dir i) ?_
    rintro db t ⟨found, -⟩
    refine After.step (bufData_runs t db) ?_
    refine After.bind (after_lift t _) ?_
    rintro inum _ ⟨-, rfl⟩
    refine After.bind (steady_bioFree _ db) ?_
    intro _ v freed
    split
    · exact After.pure (found.trans freed)
    · exact (ih v _).mono fun _ w rest => (found.trans freed).trans rest

theorem steady_ext2SearchDir (s : Fs) (dir : InodeId) (name : List (BitVec 8)) :
    After (ext2SearchDir dir name) s fun _ t => s.Steady t := by
  unfold ext2SearchDir
  refine After.step FsM.get_run ?_
  exact steady_searchBlocks dir name _ s 0

theorem copyOut_after (s : Fs) (b : BufId) (off len : Nat) : After (copyOut b off len) s fun _ t => t = s := by
  unfold copyOut
  refine After.step (bufData_runs s b) ?_
  split
  · exact After.pure rfl
  · exact After.throw _

theorem steady_readBlocks (ino : InodeId) (bsize lastblk left : Nat) : ∀ (s : Fs) (i size ooff : Nat),
    After (readBlocks ino bsize lastblk left i size ooff) s fun _ t => s.Steady t := by
  induction left with
  | zero => exact fun s i size ooff => After.pure (.refl s)
  | succ left ih =>
    intro s i size ooff
    unfold readBlocks
    split
    case isFalse => exact After.pure (.refl s)
    case isTrue =>
      refine After.bind (steady_ext2InodeBlock s ino i) ?_
      rintro b t ⟨found, -⟩
      refine After.bind (copyOut_after t b ooff _) ?_
      rintro bytes _ rfl
      refine After.bind (steady_bioFree _ b) ?_
      intro _ v freed
      refine After.bind (ih v (i + 1) _ 0) ?_
      exact fun rest w behind => After.pure ((found.trans freed).trans behind)

theorem steady_ext2ReadInode (s : Fs) (ino : InodeId) (off size : BitVec 64) :
    After (ext2ReadInode ino off size) s fun _ t => s.Steady t := by
  unfold ext2ReadInode
  refine After.step FsM.get_run ?_
  dsimp only
  split
  · exact After.pure (.refl s)
  split
  · exact After.throw _
  · refine After.bind (steady_readBlocks ino _ _ _ s _ _ _) ?_
    exact fun bytes t steady => After.pure steady

end Reads

section Writes

/-- A held buffer is changed, written and let go. -/
theorem steady_through {s : Fs} {b : BufId} (held : (s.bcache b).ref ≠ 0) (data : Block) :
    After (do setBufData b data; bioWrite b; bioFree b) s fun _ t => s.Steady t := by
  refine After.step (setBufData_runs s b data) ?_
  refine After.step (bioWrite_changed s b data) ?_
  exact (steady_bioFree _ b).mono fun _ t freed => (Fs.Steady.stored held data).trans freed

theorem steady_writeBlock {s : Fs} {b : BufId} (held : (s.bcache b).ref ≠ 0) (data : Except Fault Block) :
    After (writeBlock b data) s fun _ t => s.Steady t := by
  unfold writeBlock
  refine After.bind (after_lift s data) ?_
  rintro data _ ⟨-, rfl⟩
  have through : After ((do setBufData b data; bioWrite b; bioFree b) >>= fun _ => (pure 0 : FsM Int)) s fun _ t => s.Steady t :=
    (steady_through held data).bind fun _ t done => After.pure done
  simpa only [bind_assoc] using through

theorem steady_writeBit {s : Fs} {b : BufId} (held : (s.bcache b).ref ≠ 0) (first num : Int) (val : Bool) :
    After (writeBit first b num val) s fun _ t => s.Steady t := by
  unfold writeBit
  refine After.step FsM.get_run ?_
  split
  · exact After.pure (.refl s)
  refine After.step (bufData_runs s b) ?_
  split
  case isFalse => exact After.throw _
  case isTrue =>
    refine After.step (setBufData_runs s b _) ?_
    refine After.step (bioWrite_changed s b _) ?_
    exact After.pure (.stored held _)

theorem steady_allocBit (s : Fs) (bno : Superblock → BitVec 32) (first : Int) :
    After (allocBit bno (findFree first) (writeBit first)) s fun _ t => s.Steady t := by
  unfold allocBit
  refine After.step FsM.get_run ?_
  refine After.bind (steady_bioRead s _) ?_
  rintro b t ⟨read, held⟩
  refine After.step (bufData_runs t b) ?_
  refine After.bind (after_lift t _) ?_
  rintro num _ ⟨-, rfl⟩
  split
  · exact After.pure read
  · refine After.bind (steady_writeBit held first num true) ?_
    intro _ u written
    refine After.bind (steady_bioFree u b) ?_
    exact fun _ v freed => After.pure ((read.trans written).trans freed)

/-- The record of an inode, in a held buffer that shows it. -/
theorem mirrored_ext2RawInode (s : Fs) (inum : BitVec 32) : After (ext2RawInode inum) s fun p t =>
    s.Quiet t ∧ s.Steady t ∧ (t.bcache p.1).ref ≠ 0 ∧ (t.bcache p.1).bno = s.sb.recordBlock inum ∧ p.2 = s.sb.recordOff inum ∧
      (s.Mirrored → s.sb.recordBlock inum ≠ 0 → (t.bcache p.1).data = s.disk (s.sb.recordBlock inum)) := by
  unfold ext2RawInode
  refine After.step FsM.get_run ?_
  split
  · exact After.throw _
  · refine After.bind ((quiet_bioRead s _).and (mirrored_bioRead s _)) ?_
    rintro b t ⟨⟨quiet, own⟩, held, mirrored⟩
    refine After.pure ⟨quiet, ?_, held, own, rfl, fun h => (mirrored h).2⟩
    exact .of_itable quiet.sb (fun h => (mirrored h).1) quiet.itable

/-- `inode_sync` stores the record, and nothing else changes on the disk. -/
theorem mirrored_inodeSync (s : Fs) (ino : InodeId) : After (inodeSync ino) s fun _ t =>
    s.Steady t ∧ s.recordOff ino + 100 ≤ BUFSIZE ∧ ∃ data, (s.Mirrored → s.record ino ≠ 0 → data = s.disk (s.record ino)) ∧
      t.disk = Function.update s.disk (s.record ino) ((s.itable ino).encode data (s.recordOff ino)) := by
  unfold inodeSync
  refine After.step FsM.get_run ?_
  refine After.bind (mirrored_ext2RawInode s _) ?_
  rintro ⟨b, off⟩ t ⟨quiet, steady, held, own, rfl, shows⟩
  refine After.step (bufData_runs t b) ?_
  split
  case isFalse => exact After.throw _
  case isTrue fits =>
    refine After.step (setBufData_runs t b _) ?_
    refine After.step (bioWrite_changed t b _) ?_
    refine ((quiet_bioFree _ b).and (steady_bioFree _ b)).mono ?_
    rintro _ u ⟨quiet', freed⟩
    refine ⟨(steady.trans (.stored held _)).trans freed, fits, _, shows, ?_⟩
    rw [quiet'.disk, Fs.stored, own, quiet.disk]
    rfl

theorem steady_inodeSync (s : Fs) (ino : InodeId) : After (inodeSync ino) s fun _ t => s.Steady t :=
  (mirrored_inodeSync s ino).mono fun _ _ synced => synced.1

theorem steady_growSlots (ino : InodeId) (n left : Nat) : ∀ (i : Nat) (s : Fs),
    After (growSlots ino n left i) s fun _ t => s.Steady t := by
  induction left with
  | zero => exact fun i s => After.pure (.refl s)
  | succ left ih =>
    intro i s
    unfold growSlots
    refine After.bind (steady_allocBit s _ 0) ?_
    intro bn t taken
    refine After.step FsM.get_run ?_
    split
    case isFalse => exact After.throw _
    case isTrue =>
      refine After.step (FsM.set_run _) ?_
      refine (ih (i + 1) _).mono fun _ u rest => (taken.trans (.setInode ?_)).trans rest
      exact ⟨rfl, rfl, rfl, rfl⟩

theorem steady_ext2GrowInodeBlock (s : Fs) (ino : InodeId) (nblock : BitVec 32) :
    After (ext2GrowInodeBlock ino nblock) s fun _ t => s.Steady t := by
  unfold ext2GrowInodeBlock
  refine After.step FsM.get_run ?_
  split
  · exact After.pure (.refl s)
  · refine After.bind (steady_growSlots ino _ _ 0 s) ?_
    intro _ t grown
    refine After.step (FsM.modify_run _) ?_
    refine After.bind (steady_inodeSync _ ino) ?_
    intro _ u synced
    refine After.pure ((grown.trans (.setInode ?_)).trans synced)
    exact ⟨rfl, rfl, rfl, rfl⟩

theorem steady_growTo (s : Fs) (ino : InodeId) (lastblk : Nat) : After (growTo ino lastblk) s fun _ t => s.Steady t := by
  unfold growTo
  refine After.step FsM.get_run ?_
  split
  · refine After.bind (steady_ext2GrowInodeBlock s ino _) ?_
    exact fun _ t grown => After.pure grown
  · exact After.pure (.refl s)

theorem steady_writeBlocks (ino : InodeId) (buf : Nat → BitVec 8) (bsize lastblk left : Nat) : ∀ (s : Fs) (i size ooff pos : Nat),
    After (writeBlocks ino buf bsize lastblk left i size ooff pos) s fun _ t => s.Steady t := by
  induction left with
  | zero => exact fun s i size ooff pos => After.pure (.refl s)
  | succ left ih =>
    intro s i size ooff pos
    unfold writeBlocks
    split
    case isFalse => exact After.pure (.refl s)
    case isTrue =>
    refine After.bind (steady_ext2InodeBlock s ino i) ?_
    rintro b t ⟨found, held⟩
    have copied : After (copyIn b ooff (fun x => buf (pos + x)) (copySize bsize size ooff)) t fun _ u => ∃ data, u = t.changed b data := by
      unfold copyIn
      refine After.step (bufData_runs t b) ?_
      split
      · exact (After.iff_of_run (setBufData_runs t b _)).2 ⟨_, rfl⟩
      · exact After.throw _
    refine After.bind copied ?_
    rintro _ _ ⟨data, rfl⟩
    refine After.step (bioWrite_changed t b data) ?_
    refine After.bind (steady_bioFree _ b) ?_
    intro _ v freed
    exact (ih v _ _ _ _).mono fun _ w rest => ((found.trans (.stored held data)).trans freed).trans rest

theorem steady_linkBlocks (pdir : InodeId) (de : NewDirent) (left : Nat) : ∀ (s : Fs) (i : Nat),
    After (linkBlocks pdir de left i) s fun _ t => s.Steady t := by
  induction left with
  | zero => exact fun s i => After.pure (.refl s)
  | succ left ih =>
    intro s i
    unfold linkBlocks
    refine After.step FsM.get_run ?_
    refine After.bind (steady_ext2InodeBlock s pdir i) ?_
    rintro b t ⟨found, held⟩
    refine After.step (bufData_runs t b) ?_
    have taken : ∀ data, After (do
        let r ← writeBlock b data
        pure (some r)) t fun _ u => s.Steady u := by
      intro data
      refine After.bind (steady_writeBlock held data) ?_
      exact fun r u written => After.pure (found.trans written)
    refine After.bind (after_lift t _) ?_
    rintro ⟨empty, d⟩ _ ⟨-, rfl⟩
    dsimp only
    split
    · exact taken _
    refine After.bind (after_lift _ _) ?_
    rintro len _ ⟨-, rfl⟩
    split
    · exact taken _
    · exact (ih _ (i + 1)).mono fun _ u rest => found.trans rest

theorem steady_ext2AppendInodeBlock (s : Fs) (ino : InodeId) (bn : Int) :
    After (ext2AppendInodeBlock ino bn) s fun _ t => s.Steady t := by
  unfold ext2AppendInodeBlock
  refine After.step FsM.get_run ?_
  split
  · exact After.pure (.refl s)
  · refine After.step (FsM.modify_run _) ?_
    refine After.bind (steady_inodeSync _ ino) ?_
    intro _ t synced
    refine After.pure (Fs.Steady.trans (.setInode ?_) synced)
    exact ⟨rfl, rfl, rfl, rfl⟩

theorem steady_ext2Dirlink (s : Fs) (pdir : InodeId) (de : NewDirent) : After (ext2Dirlink pdir de) s fun _ t => s.Steady t := by
  unfold ext2Dirlink
  refine After.bind (steady_ext2SearchDir s pdir _) ?_
  intro found t searched
  split
  · exact After.pure searched
  refine After.step FsM.get_run ?_
  refine After.bind (steady_linkBlocks pdir de _ t 0) ?_
  rintro (_ | r) u linked
  · refine After.step FsM.get_run ?_
    split
    · refine After.bind (steady_allocBit u _ 0) ?_
      intro bn v taken
      refine After.bind (steady_ext2AppendInodeBlock v pdir bn) ?_
      intro _ w appended
      refine After.bind (steady_bioRead w _) ?_
      rintro b x ⟨read, held⟩
      refine After.step (bufData_runs x b) ?_
      refine (steady_writeBlock held _).mono fun _ y written => ?_
      exact ((((searched.trans linked).trans taken).trans appended).trans read).trans written
    · exact After.pure (searched.trans linked)
  · exact After.pure (searched.trans linked)

theorem steady_linkDots (s : Fs) (ino dir : InodeId) : After (linkDots ino dir) s fun _ t => s.Steady t := by
  unfold linkDots
  refine After.step (FsM.modify_run _) ?_
  have count : s.Steady (s.setInode dir fun x => { x with links_count := x.links_count + 1 }) := .setInode ⟨rfl, rfl, rfl, rfl⟩
  refine After.step FsM.get_run ?_
  refine After.bind (steady_ext2Dirlink _ ino _) ?_
  intro r t first
  split
  · exact After.pure (count.trans first)
  refine After.step FsM.get_run ?_
  refine After.bind (steady_ext2Dirlink t ino _) ?_
  intro r' u second
  split
  · exact After.pure ((count.trans first).trans second)
  · refine After.step (FsM.modify_run _) ?_
    refine After.pure (((count.trans first).trans second).trans (.setInode ?_))
    exact ⟨rfl, rfl, rfl, rfl⟩

theorem steady_newByType (s : Fs) (ino dir : InodeId) (mode : BitVec 32) :
    After (newByType ino dir mode) s fun _ t => s.Steady t := by
  unfold newByType
  split
  · exact steady_linkDots s ino dir
  · refine After.step (FsM.modify_run _) ?_
    apply After.pure
    split
    · exact .setInode ⟨rfl, rfl, rfl, rfl⟩
    · exact .refl s

end Writes

end Aarch64Os.Kernel
