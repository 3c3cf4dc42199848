import Mathlib
import Aarch64Os.Base.Ends
import Aarch64Os.Kernel.Ext2.Mknod
import Aarch64Os.Kernel.Ext2.Resolve

/-!
# What calls leave behind (`kernel/ext2.c`)

For each function, what is true of the disk and of the inode table once it has returned,
whatever the state it started in. Reads are quiet. A write changes the block whose number its
buffer has. `ext2_dirlink` writes nothing when it fails.
-/

namespace Aarch64Os.Kernel
set_option autoImplicit false
open Base

/-- The disk, the superblock and the inode table are as they were. -/
structure Fs.Quiet (s t : Fs) : Prop where
  disk : t.disk = s.disk
  sb : t.sb = s.sb
  itable : t.itable = s.itable

theorem Fs.Quiet.refl (s : Fs) : s.Quiet s := ⟨rfl, rfl, rfl⟩

theorem Fs.Quiet.trans {s t u : Fs} (first : s.Quiet t) (second : t.Quiet u) : s.Quiet u :=
  ⟨second.disk.trans first.disk, second.sb.trans first.sb, second.itable.trans first.itable⟩

/-- Only the blocks of `on` may have changed on the disk. -/
structure Fs.Writes (s t : Fs) (on : BitVec 32 → Prop) : Prop where
  sb : t.sb = s.sb
  disk : ∀ a, ¬ on a → t.disk a = s.disk a

theorem Fs.Quiet.writes {s t : Fs} (h : s.Quiet t) (on : BitVec 32 → Prop) : s.Writes t on :=
  ⟨h.sb, fun a _ => congrFun h.disk a⟩

theorem Fs.Writes.trans {s t u : Fs} {on : BitVec 32 → Prop} (first : s.Writes t on) (second : t.Writes u on) : s.Writes u on :=
  ⟨second.sb.trans first.sb, fun a out => (second.disk a out).trans (first.disk a out)⟩

theorem Fs.Writes.mono {s t : Fs} {on on' : BitVec 32 → Prop} (h : s.Writes t on) (more : ∀ a, on a → on' a) : s.Writes t on' :=
  ⟨h.sb, fun a out => h.disk a fun inside => out (more a inside)⟩

/-- A value that may be missing. -/
theorem after_lift {α : Type} (s : Fs) (x : Except Fault α) : After (liftM x : FsM α) s fun a t => x = .ok a ∧ s = t :=
  After.lift fun _ found => ⟨found, rfl⟩

section Quiet

/-- `get_buf` hands out a buffer of the block. -/
theorem quiet_getBuf (s : Fs) (bno : BitVec 32) : After (getBuf bno) s fun b t => s.Quiet t ∧ (t.bcache b).bno = bno := by
  intro b t run
  unfold getBuf at run
  split at run
  case h_1 d slot =>
    cases run
    exact ⟨⟨rfl, rfl, rfl⟩, by simpa using Bcache.slot_held slot⟩
  case h_2 d slot =>
    cases run
    exact ⟨⟨rfl, rfl, rfl⟩, by simp⟩
  case h_3 => cases run

theorem quiet_bioRead (s : Fs) (bno : BitVec 32) : After (bioRead bno) s fun b t => s.Quiet t ∧ (t.bcache b).bno = bno := by
  unfold bioRead
  refine After.bind (quiet_getBuf s bno) ?_
  rintro b t ⟨quiet, own⟩
  refine After.step FsM.get_run ?_
  cases (t.bcache b).valid with
  | true => exact After.pure ⟨quiet, own⟩
  | false =>
    refine After.step (FsM.set_run _) ?_
    apply After.pure
    exact ⟨quiet.trans ⟨rfl, rfl, rfl⟩, by simpa using own⟩

theorem quiet_bioFree (s : Fs) (b : BufId) : After (bioFree b) s fun _ t => s.Quiet t := by
  intro r t run
  unfold bioFree at run
  split at run
  · cases run
  · cases run
    exact ⟨rfl, rfl, rfl⟩

theorem bufData_runs (s : Fs) (b : BufId) : bufData b s = .ok ((s.bcache b).data, s) := rfl

theorem quiet_readIndirectBlock (s : Fs) (map : Block) (bnum : Nat) : After (readIndirectBlock map bnum) s fun _ t => s.Quiet t := by
  unfold readIndirectBlock
  split
  · exact (quiet_bioRead s _).mono fun _ _ read => read.1
  · exact After.throw _

/-- `ext2_inode_block` hands out a buffer of the block in a direct slot. -/
theorem quiet_ext2InodeBlock (s : Fs) (ino : InodeId) (bi : Nat) : After (ext2InodeBlock ino bi) s fun b t =>
    s.Quiet t ∧ ∀ h : bi < 12, (t.bcache b).bno = (s.itable ino).block ⟨bi, direct_slot h⟩ := by
  unfold ext2InodeBlock
  refine After.step FsM.get_run ?_
  split
  case isTrue direct => exact (quiet_bioRead s _).mono fun _ _ read => ⟨read.1, fun _ => read.2⟩
  case isFalse indirect =>
    refine After.bind (quiet_bioRead s _) ?_
    rintro map t ⟨quiet, -⟩
    refine After.step (bufData_runs t map) ?_
    refine After.bind (quiet_readIndirectBlock t _ bi) ?_
    intro b u quiet'
    refine After.bind (quiet_bioFree u map) ?_
    intro _ v quiet''
    apply After.pure
    exact ⟨(quiet.trans quiet').trans quiet'', fun h => absurd h indirect⟩

theorem quiet_copyOut (s : Fs) (b : BufId) (off len : Nat) : After (copyOut b off len) s fun _ t => s.Quiet t := by
  unfold copyOut
  refine After.step (bufData_runs s b) ?_
  split
  · exact After.pure (.refl s)
  · exact After.throw _

theorem quiet_readBlocks (ino : InodeId) (bsize lastblk left : Nat) : ∀ (s : Fs) (i size ooff : Nat),
    After (readBlocks ino bsize lastblk left i size ooff) s fun _ t => s.Quiet t := by
  induction left with
  | zero => exact fun s i size ooff => After.pure (.refl s)
  | succ left ih =>
    intro s i size ooff
    unfold readBlocks
    split
    case isFalse => exact After.pure (.refl s)
    case isTrue =>
      refine After.bind (quiet_ext2InodeBlock s ino i) ?_
      rintro b t ⟨found, -⟩
      refine After.bind (quiet_copyOut t b ooff _) ?_
      intro bytes u copied
      refine After.bind (quiet_bioFree u b) ?_
      intro _ v freed
      refine After.bind (ih v (i + 1) _ 0) ?_
      intro rest w behind
      exact After.pure (((found.trans copied).trans freed).trans behind)

theorem quiet_ext2ReadInode (s : Fs) (ino : InodeId) (off size : BitVec 64) :
    After (ext2ReadInode ino off size) s fun _ t => s.Quiet t := by
  unfold ext2ReadInode
  refine After.step FsM.get_run ?_
  dsimp only
  split
  · exact After.pure (.refl s)
  split
  · exact After.throw _
  · refine After.bind (quiet_readBlocks ino _ _ _ s _ _ _) ?_
    exact fun bytes t quiet => After.pure quiet

theorem quiet_searchBlocks (dir : InodeId) (name : List (BitVec 8)) (left : Nat) : ∀ (s : Fs) (i : Nat),
    After (searchBlocks dir name left i) s fun _ t => s.Quiet t := by
  induction left with
  | zero => exact fun s i => After.pure (.refl s)
  | succ left ih =>
    intro s i
    unfold searchBlocks
    refine After.step FsM.get_run ?_
    refine After.bind (quiet_ext2InodeBlock s dir i) ?_
    rintro db t ⟨quiet, -⟩
    refine After.step (bufData_runs t db) ?_
    refine After.bind (after_lift t _) ?_
    rintro inum _ ⟨-, rfl⟩
    refine After.bind (quiet_bioFree _ db) ?_
    intro _ v quiet'
    split
    · exact After.pure (quiet.trans quiet')
    · exact (ih v _).mono fun _ w rest => (quiet.trans quiet').trans rest

theorem quiet_ext2SearchDir (s : Fs) (dir : InodeId) (name : List (BitVec 8)) :
    After (ext2SearchDir dir name) s fun _ t => s.Quiet t := by
  unfold ext2SearchDir
  refine After.step FsM.get_run ?_
  exact quiet_searchBlocks dir name _ s 0

end Quiet

section Writes

theorem quiet_setBufData (s : Fs) (b : BufId) (data : Block) :
    After (setBufData b data) s fun _ t => s.Quiet t ∧ (t.bcache b).bno = (s.bcache b).bno := by
  intro r t run
  cases run
  exact ⟨⟨rfl, rfl, rfl⟩, by simp⟩

theorem writes_bioWrite (s : Fs) (b : BufId) :
    After (bioWrite b) s fun _ t => s.Writes t (· = (s.bcache b).bno) ∧ t.itable = s.itable := by
  intro r t run
  cases run
  exact ⟨⟨rfl, fun a out => Function.update_of_ne out ..⟩, rfl⟩

/-- A block is written through its buffer, which is let go. -/
theorem writes_through (s : Fs) (b : BufId) (data : Block) :
    After (do setBufData b data; bioWrite b; bioFree b) s fun _ t => s.Writes t (· = (s.bcache b).bno) ∧ t.itable = s.itable := by
  refine After.bind (quiet_setBufData s b data) ?_
  rintro _ t ⟨quiet, own⟩
  refine After.bind (writes_bioWrite t b) ?_
  rintro _ u ⟨writes, same⟩
  refine After.mono (quiet_bioFree u b) ?_
  intro _ v quiet'
  rw [own] at writes
  exact ⟨((quiet.writes _).trans writes).trans (quiet'.writes _), quiet'.itable.trans (same.trans quiet.itable)⟩

theorem writes_writeBlock (s : Fs) (b : BufId) (data : Except Fault Block) :
    After (writeBlock b data) s fun r t => r = 0 ∧ s.Writes t (· = (s.bcache b).bno) ∧ t.itable = s.itable := by
  unfold writeBlock
  refine After.bind (after_lift s data) ?_
  rintro data _ ⟨-, rfl⟩
  have through : After ((do setBufData b data; bioWrite b; bioFree b) >>= fun _ => (pure 0 : FsM Int)) s fun r t =>
      r = 0 ∧ s.Writes t (· = (s.bcache b).bno) ∧ t.itable = s.itable :=
    (writes_through s b data).bind fun _ t done => After.pure ⟨rfl, done⟩
  simpa only [bind_assoc] using through

/-- A bit of a bitmap is written. -/
theorem writes_writeBit (s : Fs) (first : Int) (bitmap : BufId) (num : Int) (val : Bool) : After (writeBit first bitmap num val) s
    fun _ t => s.Writes t (· = (s.bcache bitmap).bno) ∧ t.itable = s.itable := by
  unfold writeBit
  refine After.step FsM.get_run ?_
  split
  · exact After.pure ⟨(Fs.Quiet.refl s).writes _, rfl⟩
  refine After.step (bufData_runs s bitmap) ?_
  split
  case isFalse => exact After.throw _
  case isTrue =>
    refine After.bind (quiet_setBufData s bitmap _) ?_
    rintro _ t ⟨quiet, own⟩
    refine After.bind (writes_bioWrite t bitmap) ?_
    rintro _ u ⟨writes, same⟩
    rw [own] at writes
    exact After.pure ⟨(quiet.writes _).trans writes, same.trans quiet.itable⟩

/-- The record of an inode, in a buffer of its block. -/
theorem quiet_ext2RawInode (s : Fs) (inum : BitVec 32) :
    After (ext2RawInode inum) s fun p t => s.Quiet t ∧ (t.bcache p.1).bno = s.sb.recordBlock inum := by
  unfold ext2RawInode
  refine After.step FsM.get_run ?_
  split
  · exact After.throw _
  · refine After.bind (quiet_bioRead s _) ?_
    exact fun b t read => After.pure read

/-- `inode_sync` writes the block of the record. -/
theorem writes_inodeSync (s : Fs) (ino : InodeId) :
    After (inodeSync ino) s fun _ t => s.Writes t (· = s.record ino) ∧ t.itable = s.itable := by
  unfold inodeSync
  refine After.step FsM.get_run ?_
  refine After.bind (quiet_ext2RawInode s _) ?_
  rintro ⟨b, off⟩ t ⟨quiet, own⟩
  dsimp only
  refine After.step (bufData_runs t b) ?_
  split
  case isFalse => exact After.throw _
  case isTrue =>
    refine After.mono (writes_through t b _) ?_
    rintro _ u ⟨writes, same⟩
    rw [own] at writes
    exact ⟨(quiet.writes _).trans writes, same.trans quiet.itable⟩

/-- The loop of `ext2_dirlink` over direct blocks: it takes the entry into one, or changes nothing. -/
theorem writes_linkBlocks (pdir : InodeId) (de : NewDirent) (left : Nat) : ∀ (s : Fs) (i : Nat),
    After (linkBlocks pdir de left i) s fun r t => (r = none → s.Quiet t) ∧ (∀ n, r = some n → n = 0) ∧ t.itable = s.itable ∧
      (i + left ≤ 12 → s.Writes t fun a => ∃ k, ∃ h : k < 12, k < i + left ∧ a = (s.itable pdir).block ⟨k, direct_slot h⟩) := by
  induction left with
  | zero => exact fun s i => After.pure ⟨fun _ => .refl s, nofun, rfl, fun _ => (Fs.Quiet.refl s).writes _⟩
  | succ left ih =>
    intro s i
    unfold linkBlocks
    refine After.step FsM.get_run ?_
    refine After.bind (quiet_ext2InodeBlock s pdir i) ?_
    rintro b t ⟨quiet, own⟩
    refine After.step (bufData_runs t b) ?_
    have taken : ∀ data, After (do
        let r ← writeBlock b data
        pure (some r)) t fun r u => (r = none → s.Quiet u) ∧ (∀ n, r = some n → n = 0) ∧ u.itable = s.itable ∧
          (i + (left + 1) ≤ 12 → s.Writes u fun a => ∃ k, ∃ h : k < 12, k < i + (left + 1) ∧ a = (s.itable pdir).block ⟨k, direct_slot h⟩) := by
      intro data
      refine After.bind (writes_writeBlock t b data) ?_
      rintro r u ⟨zero, writes, same⟩
      apply After.pure
      refine ⟨nofun, fun n eq => ?_, same.trans quiet.itable, fun low => ?_⟩
      · cases eq
        exact zero
      · apply (quiet.writes _).trans
        apply writes.mono
        rintro a rfl
        exact ⟨i, by omega, by omega, own (by omega)⟩
    refine After.bind (after_lift t _) ?_
    rintro ⟨empty, d⟩ _ ⟨-, rfl⟩
    dsimp only
    split
    · exact taken _
    refine After.bind (after_lift _ _) ?_
    rintro len _ ⟨-, rfl⟩
    split
    · exact taken _
    refine After.mono (ih _ (i + 1)) ?_
    rintro r u ⟨none, some, same, writes⟩
    refine ⟨fun eq => quiet.trans (none eq), some, same.trans quiet.itable, fun low => ?_⟩
    apply (quiet.writes _).trans
    apply (writes (by omega)).mono
    rintro a ⟨k, lt, below, rfl⟩
    exact ⟨k, lt, by omega, by rw [quiet.itable]⟩

/-- What `ext2_append_inode_block` changes in the inode table. -/
def Fs.append (s : Fs) (ino : InodeId) (n : Nat) (bn : Int) : Fs := s.setInode ino fun x =>
  { x with block := Function.update x.block (Fin.ofNat 15 n) (BitVec.ofInt 32 bn), blocks := x.blocks + s.sb.bsize / 512#32 }

theorem writes_append (s : Fs) (ino : InodeId) (bn : Int) : After (ext2AppendInodeBlock ino bn) s fun _ t =>
    match (s.itable ino).freeSlot with
    | none => t = s
    | some n => s.Writes t (· = s.record ino) ∧ t.itable = (s.append ino n bn).itable := by
  unfold ext2AppendInodeBlock
  refine After.step FsM.get_run ?_
  cases (s.itable ino).freeSlot with
  | none => exact After.pure rfl
  | some n =>
    refine After.step (FsM.modify_run _) ?_
    refine After.bind (writes_inodeSync _ ino) ?_
    rintro _ t ⟨writes, same⟩
    have record : (s.append ino n bn).record ino = s.record ino := by simp [Fs.record, Fs.append, Fs.setInode]
    refine After.pure ⟨⟨writes.sb, fun a out => writes.disk a ?_⟩, same⟩
    intro here
    exact out (here.trans record)

/-- `ext2_dirlink` writes nothing when it fails. -/
theorem dirlink_fails (s : Fs) (pdir : InodeId) (de : NewDirent) : After (ext2Dirlink pdir de) s fun r t => r < 0 → s.Quiet t := by
  unfold ext2Dirlink
  refine After.bind (quiet_ext2SearchDir s pdir _) ?_
  intro found t quiet
  split
  · exact After.pure fun _ => quiet
  refine After.step FsM.get_run ?_
  refine After.bind (writes_linkBlocks pdir de _ t 0) ?_
  rintro (_ | r) u ⟨none, some, -⟩
  · refine After.step FsM.get_run ?_
    split
    · -- from here on it cannot fail any more
      refine After.behind fun bn v => After.behind fun _ w => After.behind fun b x => After.behind fun data y => ?_
      refine After.mono (writes_writeBlock y b _) ?_
      rintro r z ⟨rfl, -⟩ neg
      omega
    · exact After.pure fun _ => quiet.trans (none rfl)
  · apply After.pure
    intro neg
    rw [some r rfl] at neg
    omega

/-- `ext2_dirlink` in a directory that has blocks, all direct, writes to these. -/
theorem dirlink_writes {s : Fs} {pdir : InodeId} (some : (s.itable pdir).nblock ≠ 0) (direct : (s.itable pdir).nblock ≤ 12)
    (de : NewDirent) : After (ext2Dirlink pdir de) s fun _ t => t.itable = s.itable ∧
      s.Writes t fun a => ∃ k, ∃ h : k < 12, k < (s.itable pdir).nblock ∧ a = (s.itable pdir).block ⟨k, direct_slot h⟩ := by
  unfold ext2Dirlink
  refine After.bind (quiet_ext2SearchDir s pdir _) ?_
  intro found t quiet
  split
  · exact After.pure ⟨quiet.itable, quiet.writes _⟩
  refine After.step FsM.get_run ?_
  refine After.bind (writes_linkBlocks pdir de _ t 0) ?_
  rintro r u ⟨none, -, same, writes⟩
  rw [quiet.itable] at writes
  have total := (quiet.writes _).trans (writes (by omega))
  rw [Nat.zero_add] at total
  cases r with
  | some r => exact After.pure ⟨same.trans quiet.itable, total⟩
  | none =>
    refine After.step FsM.get_run ?_
    rw [if_neg (by rw [same, quiet.itable]; exact some)]
    exact After.pure ⟨same.trans quiet.itable, total⟩

end Writes

section Coherent
variable {s : Fs}

/-- With a coherent cache the record is what is on the disk. -/
theorem Coherent.rawInode_after (h : Coherent s) (inum : BitVec 32) : After (ext2RawInode inum) s fun p t =>
    s.Slot p.1 (s.sb.recordBlock inum) ∧ p.2 = s.sb.recordOff inum ∧
      t = s.hold p.1 (s.sb.recordBlock inum) (s.disk (s.sb.recordBlock inum)) := by
  unfold ext2RawInode
  refine After.step FsM.get_run ?_
  split
  · exact After.throw _
  · refine After.bind (fun b t run => h.bioRead_inv run) ?_
    rintro b t ⟨slot, held⟩
    exact After.pure ⟨slot, rfl, held⟩

/-- `ext2_get_inode` fills the entry of the inode, or finds no place. -/
theorem Coherent.getInode_after (h : Coherent s) (inum : BitVec 32) : After (ext2GetInode inum) s fun r t =>
    Coherent t ∧ t.disk = s.disk ∧ t.sb = s.sb ∧
      match s.inodeSlot inum with
      | none => r = none ∧ t.itable = s.itable
      | some (i, _) => r = some i ∧ t.itable =
        Function.update s.itable i ((s.itable i).fillFrom inum (s.disk (s.sb.recordBlock inum)) (s.sb.recordOff inum)) := by
  unfold ext2GetInode
  cases slot : s.inodeSlot inum with
  | none =>
    have find : findInode inum s = .ok (none, s) := by simp only [findInode, slot]
    refine After.step find ?_
    refine After.bind (h.rawInode_after inum) ?_
    rintro ⟨b, off⟩ t ⟨place, -, rfl⟩
    exact After.pure ⟨h.hold place, rfl, rfl, rfl, rfl⟩
  | some p =>
    obtain ⟨i, held⟩ := p
    obtain ⟨g, find, same⟩ := findInode_ok slot
    refine After.step find ?_
    have h' := h.setInode i g
    refine After.bind (h'.rawInode_after inum) ?_
    rintro ⟨b, off⟩ t ⟨place, rfl, rfl⟩
    dsimp only
    refine After.step (Coherent.bufData_hold ..) ?_
    split
    case isFalse => exact After.throw _
    case isTrue =>
      refine After.step (FsM.modify_run _) ?_
      -- filling the entry and holding the buffer touch different parts of the state
      have freed := (h'.setInode i fun x => x.decode (s.disk (s.sb.recordBlock inum)) (s.sb.recordOff inum)).free_hold place
      refine After.step freed ?_
      apply After.pure
      refine ⟨(h'.setInode i _), rfl, rfl, rfl, ?_⟩
      simp only [Fs.setInode, Function.update_self, Function.update_idem, same]

/-- A block of an inode, as it is on the disk. -/
theorem Coherent.inodeBlock_after (h : Coherent s) (ino : InodeId) (bi : Nat) : After (ext2InodeBlock ino bi) s fun b t =>
    ∃ a, s.bmap ino bi = some a ∧ s.Slot b a ∧ t = s.hold b a (s.disk a) := by
  unfold ext2InodeBlock Fs.bmap
  refine After.step FsM.get_run ?_
  split
  case isTrue direct =>
    intro b t run
    obtain ⟨slot, held⟩ := h.bioRead_inv run
    exact ⟨_, rfl, slot, held⟩
  case isFalse =>
    refine After.bind (fun b t run => h.bioRead_inv run) ?_
    rintro map t ⟨slot, rfl⟩
    refine After.step (Coherent.bufData_hold ..) ?_
    unfold readIndirectBlock
    split
    case isFalse => exact After.bind (After.throw Fault.undefined) fun _ _ (no : False) => no.elim
    case isTrue =>
      refine After.bind (fun b u run => (h.hold slot).bioRead_inv run) ?_
      rintro b u ⟨slot', rfl⟩
      obtain ⟨freed, second⟩ := h.free_first slot slot'
      refine After.step freed ?_
      exact After.pure ⟨_, rfl, second, rfl⟩

/-- An allocation searches the bitmap on the disk, and writes that bitmap only. -/
theorem Coherent.allocBit_after (h : Coherent s) (bno : Superblock → BitVec 32) {first : Int} (nonneg : 0 ≤ first) :
    After (allocBit bno (findFree first) (writeBit first)) s fun num t =>
      findFree first s.sb.bsize (s.disk (bno s.sb)) = .ok num ∧ s.Writes t (· = bno s.sb) ∧ t.itable = s.itable := by
  unfold allocBit
  refine After.step FsM.get_run ?_
  refine After.bind (fun b t run => h.bioRead_inv run) ?_
  rintro b t ⟨slot, rfl⟩
  have quiet : s.Quiet (s.hold b (bno s.sb) (s.disk (bno s.sb))) := ⟨rfl, rfl, rfl⟩
  refine After.step (Coherent.bufData_hold ..) ?_
  refine After.bind (after_lift _ _) ?_
  rintro num _ ⟨found, rfl⟩
  split
  · rename_i neg
    rcases findFree_ok found with ⟨rfl, -⟩ | ⟨k, rfl, -⟩
    · exact After.pure ⟨found, quiet.writes _, rfl⟩
    · omega
  · refine After.bind (writes_writeBit _ first b num true) ?_
    rintro _ u ⟨writes, same⟩
    refine After.bind (quiet_bioFree u b) ?_
    intro _ v quiet'
    have own : ((s.hold b (bno s.sb) (s.disk (bno s.sb))).bcache b).bno = bno s.sb := by simp [Fs.hold]
    rw [own] at writes
    exact After.pure ⟨found, ((quiet.writes _).trans writes).trans (quiet'.writes _), quiet'.itable.trans same⟩

/-- `ext2_dirlink` in a directory without blocks gives it one. -/
theorem Coherent.dirlink_empty (h : Coherent s) {pdir : InodeId} (blank : (s.itable pdir).nblock = 0) (de : NewDirent) :
    After (ext2Dirlink pdir de) s fun _ t => ∃ bn, findFreeBlock s.sb.bsize (s.disk s.sb.block_bitmap) = .ok bn ∧
      s.Writes t (fun a => a = s.sb.block_bitmap ∨ a = s.record pdir ∨ a = BitVec.ofInt 32 bn) ∧
      match (s.itable pdir).freeSlot with
      | none => t.itable = s.itable
      | some n => t.itable = (s.append pdir n bn).itable := by
  unfold ext2Dirlink
  have search : ext2SearchDir pdir (de.name ++ [0]) s = .ok (-1, s) := by
    unfold ext2SearchDir
    rw [FsM.bind_of_ok FsM.get_run, blank]
    rfl
  refine After.step search ?_
  rw [if_neg (by omega)]
  refine After.step FsM.get_run ?_
  rw [blank]
  have link : linkBlocks pdir de 0 0 s = .ok (none, s) := rfl
  refine After.step link ?_
  refine After.step FsM.get_run ?_
  rw [if_pos blank]
  refine After.bind (h.allocBit_after _ le_rfl) ?_
  rintro bn t ⟨found, writes, same⟩
  refine After.bind (writes_append t pdir bn) ?_
  intro _ u appended
  refine After.bind (quiet_bioRead u _) ?_
  rintro b v ⟨quiet, own⟩
  refine After.step (bufData_runs v b) ?_
  refine After.mono (writes_writeBlock v b _) ?_
  rintro _ w ⟨-, writes', same'⟩
  have record : t.record pdir = s.record pdir := by unfold Fs.record; rw [same, writes.sb]
  have alloc : s.Writes t fun a => a = s.sb.block_bitmap ∨ a = s.record pdir ∨ a = BitVec.ofInt 32 bn :=
    writes.mono fun a => .inl
  have last : u.Writes w fun a => a = s.sb.block_bitmap ∨ a = s.record pdir ∨ a = BitVec.ofInt 32 bn := by
    rw [own] at writes'
    exact (quiet.writes _).trans (writes'.mono fun a => .inr ∘ .inr)
  have table : w.itable = u.itable := same'.trans quiet.itable
  refine ⟨bn, found, ?_⟩
  rw [same] at appended
  split at appended
  · subst appended
    exact ⟨alloc.trans last, table.trans same⟩
  · obtain ⟨sync, entry⟩ := appended
    refine ⟨(alloc.trans (sync.mono fun a here => ?_)).trans last, ?_⟩
    · exact .inr (.inl (here.trans record))
    · rw [table, entry]
      simp only [Fs.append, Fs.setInode, same, writes.sb]

/-- A search leaves the state as it is. -/
theorem Coherent.searchDir_after (h : Coherent s) (dir : InodeId) (name : List (BitVec 8)) :
    After (ext2SearchDir dir name) s fun _ t => t = s := by
  have loop : ∀ left i, After (searchBlocks dir name left i) s fun _ t => t = s := by
    intro left
    induction left with
    | zero => exact fun i => After.pure rfl
    | succ left ih =>
      intro i
      unfold searchBlocks
      refine After.step FsM.get_run ?_
      refine After.bind (h.inodeBlock_after dir i) ?_
      rintro db t ⟨a, -, slot, rfl⟩
      refine After.step (Coherent.bufData_hold ..) ?_
      refine After.bind (after_lift _ _) ?_
      rintro inum _ ⟨-, rfl⟩
      refine After.step (h.free_hold slot) ?_
      split
      · exact After.pure rfl
      · exact ih (i + 1)
  unfold ext2SearchDir
  refine After.step FsM.get_run ?_
  exact loop _ 0

end Coherent

end Aarch64Os.Kernel
