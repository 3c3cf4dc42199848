import Mathlib
import Aarch64Os.Base.Debt
import Aarch64Os.Base.Transition
import Aarch64Os.Kernel.Ext2.Mknod
import Aarch64Os.Kernel.Ext2.Resolve

/-!
# Buffers taken and given back (`kernel/ext2.c`)

Each function lets go of the buffers it reads, but for three exits: an allocation from a full
bitmap, `ext2_get_inode` without a place in the inode table, and the loop of `ext2_dirlink`
when it goes on behind a block without room. The conditions follow the code to these exits.
-/

namespace Aarch64Os.Kernel
set_option autoImplicit false
open Base

/-- The `ref` counts of the buffers. -/
def Fs.refs (s : Fs) (b : BufId) : Nat := (s.bcache b).ref

/-- One reference to buffer `b`. -/
abbrev one (b : BufId) : BufId → Nat := Pi.single b 1

theorem one_pos (b : BufId) : 0 < one b := Pi.single_pos.2 Nat.one_pos

/-- The data `bio_read` hands out for block `bno`. -/
def Fs.seen (s : Fs) (bno : BitVec 32) : Block :=
  match s.bcache.slot bno with
  | some (b, _) => if (s.bcache b).valid then (s.bcache b).data else s.disk bno
  | none => s.disk bno

section Buffers
variable {s t : Fs} {b : BufId} {bno : BitVec 32}

/-- One buffer's counter changes. -/
theorem refs_set (s : Fs) (b : BufId) (f : Buf → Buf) :
    Fs.refs { s with bcache := s.bcache.set b f } = Function.update s.refs b (f (s.bcache b)).ref := by
  funext d
  rcases eq_or_ne d b with rfl | ne
  · simp [Fs.refs]
  · simp [Fs.refs, Bcache.set_ne _ _ ne, ne]

theorem refs_set_same (s : Fs) (b : BufId) {f : Buf → Buf} (same : (f (s.bcache b)).ref = (s.bcache b).ref) :
    Fs.refs { s with bcache := s.bcache.set b f } = s.refs := by
  rw [refs_set, same]
  exact Function.update_eq_self ..

theorem update_add_one (r : BufId → Nat) (b : BufId) : Function.update r b (r b + 1) = r + one b := by
  funext d
  rcases eq_or_ne d b with rfl | ne
  · simp
  · simp [ne]

/-- `get_buf` takes one reference, and leaves the data alone. -/
theorem getBuf_run (run : getBuf bno s = .ok (b, t)) : t.refs = s.refs + one b ∧ t.disk = s.disk ∧ t.itable = s.itable ∧
    t.sb = s.sb ∧ (if (t.bcache b).valid then (t.bcache b).data else t.disk bno) = s.seen bno := by
  unfold getBuf at run
  split at run
  case h_1 d slot =>
    cases run
    refine ⟨?_, rfl, rfl, rfl, ?_⟩
    · rw [refs_set]
      exact update_add_one ..
    · simp [Fs.seen, slot]
  case h_2 d slot =>
    cases run
    refine ⟨?_, rfl, rfl, rfl, ?_⟩
    · have free : s.refs b = 0 := (Bcache.slot_free slot).1
      rw [refs_set, ← update_add_one, free]
    · simp [Fs.seen, slot]
  case h_3 => cases run

/-- `bio_read` takes one reference, and hands out what it has seen. -/
theorem bioRead_run (run : bioRead bno s = .ok (b, t)) : t.refs = s.refs + one b ∧ t.disk = s.disk ∧ t.itable = s.itable ∧
    t.sb = s.sb ∧ (t.bcache b).data = s.seen bno := by
  obtain ⟨d, u, got, run⟩ := run_bind.1 run
  obtain ⟨refs, disk, itable, sb, data⟩ := getBuf_run got
  rw [FsM.bind_of_ok FsM.get_run] at run
  cases valid : (u.bcache d).valid with
  | false =>
    rw [valid] at run
    cases run
    refine ⟨?_, disk, itable, sb, ?_⟩
    · rw [← refs]
      exact refs_set_same _ _ rfl
    · simpa [valid] using data
  | true =>
    rw [valid] at run
    cases run
    exact ⟨refs, disk, itable, sb, by simpa [valid] using data⟩

theorem takes_bioRead (s : Fs) (bno : BitVec 32) : Takes Fs.refs (bioRead bno) s one :=
  fun _ _ run => (bioRead_run run).1

/-- `bio_free` gives it back. -/
theorem owes_bioFree (s : Fs) (b : BufId) : Owes Fs.refs (one b) (bioFree b) s True := by
  apply Owes.of_gives
  intro a t run
  unfold bioFree at run
  split at run
  case isTrue => cases run
  case isFalse held =>
  cases run
  have less : (if (s.bcache b).ref - 1 = 0 then Buf.zero else { s.bcache b with ref := (s.bcache b).ref - 1 }).ref + 1 = s.refs b := by
    unfold Fs.refs
    split
    · rw [Buf.zero_ref]
      omega
    · simp only
      omega
  rw [refs_set]
  funext d
  rcases eq_or_ne d b with rfl | ne
  · simpa using less
  · simp [ne]

theorem bufData_run (s : Fs) (b : BufId) : bufData b s = .ok ((s.bcache b).data, s) := rfl

theorem takes_bufData (s : Fs) (b : BufId) : Takes Fs.refs (bufData b) s fun _ => 0 :=
  Takes.step FsM.get_run rfl (Takes.pure _)

theorem takes_setBufData (s : Fs) (b : BufId) (data : Block) : Takes Fs.refs (setBufData b data) s fun _ => 0 := by
  intro a t run
  cases run
  exact refs_set_same s b rfl

theorem takes_bioWrite (s : Fs) (b : BufId) : Takes Fs.refs (bioWrite b) s fun _ => 0 := by
  intro a t run
  cases run
  exact refs_set_same s b rfl

theorem takes_lift {α : Type} (s : Fs) (x : Except Fault α) : Takes Fs.refs (liftM x : FsM α) s fun _ => 0 := by
  intro a t run
  cases x with
  | error e => cases run
  | ok c =>
    cases run
    rfl

end Buffers

section Bitmaps

theorem takes_writeBit (s : Fs) (first : Int) (b : BufId) (num : Int) (val : Bool) :
    Takes Fs.refs (writeBit first b num val) s fun _ => 0 := by
  unfold writeBit
  apply Takes.step FsM.get_run rfl
  split
  case h_1 => exact Takes.pure _
  case h_2 =>
    apply (takes_bufData s b).bind_free
    intro data t _
    split
    · apply Takes.bind_free (takes_setBufData _ _ _)
      intro _ u _
      exact (takes_bioWrite u b).bind_free fun _ _ _ => Takes.pure _
    · exact Takes.throw _ _

/-- The bitmap in block `bno` has a clear bit. -/
def Fs.HasBit (s : Fs) (bno : BitVec 32) : Prop := ¬ Full s.sb.bsize (s.seen bno)

/-- A full bitmap stays held. -/
theorem owes_allocBit (s : Fs) (bno : Superblock → BitVec 32) {first : Int} (nonneg : 0 ≤ first) :
    Owes Fs.refs 0 (allocBit bno (findFree first) (writeBit first)) s (s.HasBit (bno s.sb)) := by
  unfold allocBit
  apply Owes.step FsM.get_run rfl
  apply Owes.bind_taken (takes_bioRead s _)
  intro b t read
  apply Owes.step (bufData_run t b) rfl
  rw [(bioRead_run read).2.2.2.2]
  apply Owes.bind_free (takes_lift t _)
  intro num u found
  cases search : findFree first s.sb.bsize (s.seen (bno s.sb)) with
  | error e =>
    rw [search] at found
    cases found
  | ok num' =>
  rw [search] at found
  cases found
  rcases findFree_ok search with ⟨rfl, full⟩ | ⟨k, rfl, lt, byte, clear, -⟩
  · rw [if_pos (by decide)]
    exact (Owes.pure_debt _ (one_pos b)).congr (iff_of_false not_false (not_not.2 full))
  · rw [if_neg (by omega)]
    have some : s.HasBit (bno s.sb) := fun full => by
      have bound : k / 8 < BUFSIZE := by omega
      have ones := full ⟨k / 8, bound⟩ (show k / 8 < s.sb.bsize.toNat by omega)
      rw [bit, dif_pos bound, ones, getLsbD_0xff (by omega)] at clear
      cases clear
    apply Owes.bind_free (takes_writeBit _ _ _ _ _)
    intro _ v _
    exact ((owes_bioFree v b).bind_paid fun _ _ _ => Owes.pure _).congr ⟨fun _ => some, fun _ => ⟨trivial, trivial⟩⟩

end Bitmaps

section Inodes

theorem takes_ext2RawInode (s : Fs) (inum : BitVec 32) : Takes Fs.refs (ext2RawInode inum) s fun p => one p.1 := by
  unfold ext2RawInode
  apply Takes.step FsM.get_run rfl
  split
  case isTrue => exact Takes.throw _ _
  case isFalse =>
    intro p t run
    obtain ⟨b, u, read, run⟩ := run_bind.1 run
    cases run
    exact takes_bioRead s _ b t read

theorem takes_inodeSync (s : Fs) (ino : InodeId) : Takes Fs.refs (inodeSync ino) s fun _ => 0 := by
  apply Owes.takes
  unfold inodeSync
  apply Owes.step FsM.get_run rfl
  apply Owes.bind_taken (takes_ext2RawInode s _)
  rintro ⟨b, off⟩ t _
  apply Owes.bind_free (takes_bufData t b)
  intro data u _
  split
  case isFalse => exact Owes.throw _ _
  case isTrue =>
    apply Owes.bind_free (takes_setBufData _ _ _)
    intro _ v _
    apply Owes.bind_free (takes_bioWrite v b)
    intro _ w _
    exact owes_bioFree w b

theorem takes_readIndirectBlock (s : Fs) (map : Block) (bnum : Nat) : Takes Fs.refs (readIndirectBlock map bnum) s one := by
  unfold readIndirectBlock
  split
  · exact takes_bioRead s _
  · exact Takes.throw _ _

theorem takes_ext2InodeBlock (s : Fs) (ino : InodeId) (bi : Nat) : Takes Fs.refs (ext2InodeBlock ino bi) s one := by
  unfold ext2InodeBlock
  apply Takes.step FsM.get_run rfl
  split
  case isTrue => exact takes_bioRead s _
  case isFalse =>
    -- the map is given back behind the read of the block
    intro b t run
    obtain ⟨map, u, read, run⟩ := run_bind.1 run
    rw [FsM.bind_of_ok (bufData_run u map)] at run
    obtain ⟨b', v, read', run⟩ := run_bind.1 run
    obtain ⟨_, w, freed, run⟩ := run_bind.1 run
    cases run
    have paid : t.refs + one map = v.refs := (owes_bioFree v map _ t freed).2.2 trivial
    rw [takes_readIndirectBlock _ _ _ b v read', takes_bioRead s _ map _ read, add_right_comm] at paid
    exact add_right_cancel paid

theorem takes_copyOut (s : Fs) (b : BufId) (off len : Nat) : Takes Fs.refs (copyOut b off len) s fun _ => 0 := by
  unfold copyOut
  apply (takes_bufData s b).bind_free
  intro data t _
  split
  · exact Takes.pure _
  · exact Takes.throw _ _

theorem takes_copyIn (s : Fs) (b : BufId) (off : Nat) (buf : Nat → BitVec 8) (len : Nat) :
    Takes Fs.refs (copyIn b off buf len) s fun _ => 0 := by
  unfold copyIn
  apply (takes_bufData s b).bind_free
  intro data t _
  split
  · exact takes_setBufData _ _ _
  · exact Takes.throw _ _

/-- The reading loop lets go of every block. -/
theorem takes_readBlocks (ino : InodeId) (bsize lastblk left : Nat) : ∀ (s : Fs) (i size ooff : Nat),
    Takes Fs.refs (readBlocks ino bsize lastblk left i size ooff) s fun _ => 0 := by
  induction left with
  | zero => exact fun s i size ooff => Takes.pure []
  | succ left ih =>
    intro s i size ooff
    unfold readBlocks
    split
    case isFalse => exact Takes.pure []
    case isTrue =>
    apply Owes.takes
    apply Owes.bind_taken (takes_ext2InodeBlock s ino i)
    intro b t _
    apply Owes.bind_free (takes_copyOut t b _ _)
    intro bytes u _
    apply ((owes_bioFree u b).bind_paid ?_).congr (and_self_iff ..)
    intro _ v _
    apply Owes.of_takes
    apply (ih v _ _ _).bind_free
    exact fun rest w _ => Takes.pure (bytes ++ rest)

theorem takes_ext2ReadInode (s : Fs) (ino : InodeId) (off size : BitVec 64) :
    Takes Fs.refs (ext2ReadInode ino off size) s fun _ => 0 := by
  unfold ext2ReadInode
  apply Takes.step FsM.get_run rfl
  dsimp only
  split
  case isTrue => exact Takes.pure _
  case isFalse =>
  split
  case isTrue => exact Takes.throw _ _
  case isFalse =>
    apply Takes.bind_free (takes_readBlocks _ _ _ _ _ _ _ _)
    exact fun bytes t _ => Takes.pure _

/-- The writing loop does, too. -/
theorem takes_writeBlocks (ino : InodeId) (buf : Nat → BitVec 8) (bsize lastblk left : Nat) : ∀ (s : Fs) (i size ooff pos : Nat),
    Takes Fs.refs (writeBlocks ino buf bsize lastblk left i size ooff pos) s fun _ => 0 := by
  induction left with
  | zero => exact fun s i size ooff pos => Takes.pure ()
  | succ left ih =>
    intro s i size ooff pos
    unfold writeBlocks
    split
    case isFalse => exact Takes.pure ()
    case isTrue =>
    apply Owes.takes
    apply Owes.bind_taken (takes_ext2InodeBlock s ino i)
    intro b t _
    apply Owes.bind_free (takes_copyIn t b _ _ _)
    intro _ u _
    apply Owes.bind_free (takes_bioWrite u b)
    intro _ v _
    apply ((owes_bioFree v b).bind_paid ?_).congr (and_self_iff ..)
    exact fun _ w _ => Owes.of_takes (ih w _ _ _ _)

/-- Every block `ext2_grow_inode_block` still has to allocate finds a bit. -/
def GrowFits (ino : InodeId) (n : Nat) : Nat → Nat → Fs → Prop
  | 0, _, _ => True
  | left + 1, i, s => s.HasBit s.sb.block_bitmap ∧ After ext2AllocBlock s fun bn t => ∀ h : n + i < 15,
      GrowFits ino n left (i + 1) (t.setInode ino fun x => { x with block := Function.update x.block ⟨n + i, h⟩ (BitVec.ofInt 32 bn) })

theorem owes_growSlots (ino : InodeId) (n left : Nat) : ∀ (i : Nat) (s : Fs),
    Owes Fs.refs 0 (growSlots ino n left i) s (GrowFits ino n left i s) := by
  induction left with
  | zero => exact fun i s => Owes.pure ()
  | succ left ih =>
    intro i s
    unfold growSlots GrowFits
    apply (owes_allocBit s Superblock.block_bitmap le_rfl).bind_after
    intro bn t _
    apply Owes.step FsM.get_run rfl
    split
    case isFalse => exact Owes.throw _ _
    case isTrue lt =>
      refine Owes.step (FsM.set_run _) ?_ ((ih (i + 1) _).congr ?_)
      · rfl
      · exact ⟨fun fits _ => fits, fun fits => fits lt⟩

/-- `ext2_grow_inode_block` finds the bits it looks for, if it has a slot for the blocks. -/
def GrowInodeFits (ino : InodeId) (nblock : BitVec 32) (s : Fs) : Prop :=
  ∀ n, (s.itable ino).freeSlot = some n → GrowFits ino n nblock.toInt.toNat 0 s

theorem owes_ext2GrowInodeBlock (s : Fs) (ino : InodeId) (nblock : BitVec 32) :
    Owes Fs.refs 0 (ext2GrowInodeBlock ino nblock) s (GrowInodeFits ino nblock s) := by
  unfold ext2GrowInodeBlock GrowInodeFits
  apply Owes.step FsM.get_run rfl
  cases slot : (s.itable ino).freeSlot with
  | none => exact (Owes.pure _).congr ⟨fun _ n found => (nomatch found), fun _ => trivial⟩
  | some n =>
    apply ((owes_growSlots ino n nblock.toInt.toNat 0 s).bind (Q := True) ?_).congr ?_
    · intro _ t _
      refine Owes.step (FsM.modify_run _) ?_ ?_
      · rfl
      · apply Owes.of_takes
        apply Takes.bind_free (takes_inodeSync _ ino)
        exact fun _ u _ => Takes.pure 0
    · constructor
      · rintro ⟨fits, -⟩ m found
        cases found
        exact fits
      · exact fun fits => ⟨fits n rfl, trivial⟩

/-- The growing step of a write finds the bits it looks for. -/
def GrowToFits (ino : InodeId) (lastblk : Nat) (s : Fs) : Prop :=
  lastblk > (s.itable ino).nblock → GrowInodeFits ino (BitVec.ofNat 32 (lastblk - (s.itable ino).nblock)) s

theorem owes_growTo (s : Fs) (ino : InodeId) (lastblk : Nat) :
    Owes Fs.refs 0 (growTo ino lastblk) s (GrowToFits ino lastblk s) := by
  unfold growTo GrowToFits
  apply Owes.step FsM.get_run rfl
  split
  case isTrue more =>
    apply ((owes_ext2GrowInodeBlock s ino _).bind (Q := True) ?_).congr ?_
    · exact fun _ t _ => Owes.pure ()
    · exact ⟨fun fits _ => fits.1, fun fits => ⟨fits more, trivial⟩⟩
  case isFalse enough =>
    exact (Owes.pure ()).congr ⟨fun _ more => absurd more enough, fun _ => trivial⟩

/-- A write that is not behind the end of the file grows within the bits there are. -/
def WriteFits (ino : InodeId) (off size : BitVec 64) (s : Fs) : Prop :=
  off.toNat ≤ (s.itable ino).size.toNat →
    GrowToFits ino ((size + off).toNat / s.sb.bsize.toNat % 2 ^ 32)
      (if (off + size).toNat > (s.itable ino).size.toNat then s.setInode ino fun x => { x with size := (off + size).setWidth 32 } else s)

theorem owes_ext2WInode (s : Fs) (ino : InodeId) (buf : Nat → BitVec 8) (off size : BitVec 64) :
    Owes Fs.refs 0 (ext2WInode ino buf off size) s (WriteFits ino off size s) := by
  unfold ext2WInode WriteFits
  apply Owes.step FsM.get_run rfl
  dsimp only
  split
  case isTrue beyond => exact (Owes.pure _).congr ⟨fun _ inside => absurd inside (by omega), fun _ => trivial⟩
  case isFalse inside =>
  refine Owes.step (FsM.set_run _) ?_ ?_
  · split <;> rfl
  split
  case isTrue => exact Owes.throw _ _
  case isFalse =>
  apply ((owes_growTo _ ino _).bind (Q := True) ?_).congr ?_
  · intro _ t _
    apply Owes.step FsM.get_run rfl
    apply Owes.of_takes
    apply Takes.bind_free (takes_writeBlocks _ _ _ _ _ _ _ _ _ _)
    intro _ u _
    apply Takes.bind_free (takes_inodeSync u ino)
    exact fun _ v _ => Takes.pure _
  · exact ⟨fun fits _ => fits.1, fun fits => ⟨fits (by omega), trivial⟩⟩

theorem takes_findInode (s : Fs) (inum : BitVec 32) : Takes Fs.refs (findInode inum) s fun _ => 0 := by
  intro r t run
  unfold findInode at run
  split at run <;> cases run <;> rfl

/-- Without a place in the table the record's buffer stays held. -/
theorem owes_ext2GetInode (s : Fs) (inum : BitVec 32) :
    Owes Fs.refs 0 (ext2GetInode inum) s ((s.inodeSlot inum).isSome) := by
  unfold ext2GetInode
  apply Owes.bind_free (takes_findInode s inum)
  intro r t found
  have place : r.isSome = (s.inodeSlot inum).isSome := by
    unfold findInode at found
    split at found <;> cases found <;> simp [*]
  rw [← place]
  apply Owes.bind_taken (takes_ext2RawInode t inum)
  rintro ⟨b, off⟩ u _
  cases r with
  | none => exact (Owes.pure_debt none (one_pos b)).congr (by simp)
  | some i =>
    apply Owes.bind_free (takes_bufData u b)
    intro data v _
    split
    case isFalse => exact Owes.throw _ _
    case isTrue =>
      refine Owes.step (FsM.modify_run _) ?_ ?_
      · rfl
      · apply ((owes_bioFree _ b).bind_paid (Q := True) ?_).congr (by simp)
        exact fun _ w _ => Owes.pure (some i)

end Inodes

section Walks

theorem takes_searchBlocks (dir : InodeId) (name : List (BitVec 8)) (left : Nat) : ∀ (s : Fs) (i : Nat),
    Takes Fs.refs (searchBlocks dir name left i) s fun _ => 0 := by
  induction left with
  | zero => exact fun s i => Takes.pure (-1)
  | succ left ih =>
    intro s i
    unfold searchBlocks
    apply Takes.step FsM.get_run rfl
    apply Owes.takes
    apply Owes.bind_taken (takes_ext2InodeBlock s dir i)
    intro db t _
    apply Owes.bind_free (takes_bufData t db)
    intro data u _
    apply Owes.bind_free (takes_lift u _)
    intro inum v _
    apply ((owes_bioFree v db).bind_paid ?_).congr (and_self_iff ..)
    intro _ w _
    split
    · exact Owes.pure inum
    · exact Owes.of_takes (ih w _)

theorem takes_ext2SearchDir (s : Fs) (dir : InodeId) (name : List (BitVec 8)) :
    Takes Fs.refs (ext2SearchDir dir name) s fun _ => 0 := by
  unfold ext2SearchDir
  apply Takes.step FsM.get_run rfl
  exact takes_searchBlocks dir name _ s 0

/-- Every inode that a walk loads finds a place in the table. `last` is the walk's test for the
end of the path. -/
def WalkFits (last : List Chr → NameBuf → Prop) : Nat → Option InodeId → List Chr → NameBuf → Fs → Prop
  | 0, _, _, _, _ => True
  | left + 1, pi, path, name, s =>
    match skippath path name, pi with
    | .ok (name, some path), some p =>
      last path name ∨ S_ISDIR (s.itable p).mode = false ∨ After (ext2SearchDir p name.mem) s fun inum t => 0 ≤ inum →
        (t.inodeSlot (BitVec.ofInt 32 inum)).isSome ∧
          After (ext2GetInode (BitVec.ofInt 32 inum)) t fun next u => WalkFits last left next path NameBuf.zero u
    | _, _ => True

/-- The end of the path for `traverse_inode`. -/
def AtEnd (path : List Chr) (name : NameBuf) : Prop := path = [] ∧ name 0 = 0

/-- The end of the path for `traverse_inode_parent`. -/
def AtLast (path : List Chr) (_ : NameBuf) : Prop := path = []

/-- One round of either walk. `done` is what it returns, and `go` the next round. -/
theorem owes_round {α : Type} {last : List Chr → NameBuf → Prop} [∀ path name, Decidable (last path name)]
    {done : Option InodeId → NameBuf → FsM α} {go : Option InodeId → List Chr → FsM α} {left : Nat}
    (dones : ∀ r name t, Owes Fs.refs 0 (done r name) t True)
    (goes : ∀ next path t, Owes Fs.refs 0 (go next path) t (WalkFits last left next path NameBuf.zero t))
    (s : Fs) (pi : Option InodeId) (path : List Chr) (name : NameBuf) :
    Owes Fs.refs 0 (do
      let (name, path) ← liftM (skippath path name)
      match path, pi with
      | none, _ => done none name
      | some path, pi =>
        if last path name then done pi name
        else
          match pi with
          | none => throw .undefined
          | some pi => do
            let s ← get
            if ! S_ISDIR (s.itable pi).mode then done (some pi) name
            else
              let inum ← ext2SearchDir pi name.mem
              if inum < 0 then done none name
              else
                let next ← ext2GetInode (BitVec.ofInt 32 inum)
                go next path) s (WalkFits last (left + 1) pi path name s) := by
  unfold WalkFits
  cases skip : skippath path name with
  | error e => exact Owes.bind_free (takes_lift s _) fun a t run => nomatch run
  | ok r =>
  obtain ⟨name', path'⟩ := r
  apply Owes.step (FsM.lift_ok rfl) rfl
  cases path' with
  | none => exact dones none name' s
  | some path' =>
  dsimp only
  split
  case isTrue ending =>
    apply (dones pi name' s).congr
    cases pi with
    | none => exact Iff.rfl
    | some p => exact ⟨fun _ => .inl ending, fun _ => trivial⟩
  case isFalse more =>
  cases pi with
  | none => exact Owes.throw _ _
  | some p =>
  apply Owes.step FsM.get_run rfl
  cases dir : S_ISDIR (s.itable p).mode with
  | false => exact (dones (some p) name' s).congr ⟨fun _ => .inr (.inl dir), fun _ => trivial⟩
  | true =>
  apply (Owes.free_after (takes_ext2SearchDir s p name'.mem) ?_).congr
  · exact ⟨fun fits => .inr (.inr fits), fun fits => (fits.resolve_left more).resolve_left (by simp [dir])⟩
  · intro inum t _
    split
    case isTrue neg => exact (dones none name' t).congr ⟨fun _ nonneg => absurd neg (by omega), fun _ => trivial⟩
    case isFalse nonneg =>
      apply ((owes_ext2GetInode t _).bind_after ?_).congr ?_
      · exact fun next u => WalkFits last left next path' NameBuf.zero u
      · exact fun next u _ => goes next path' u
      · exact ⟨fun fits _ => fits, fun fits => fits (by omega)⟩

instance (path : List Chr) (name : NameBuf) : Decidable (AtEnd path name) := inferInstanceAs (Decidable (_ ∧ _))

instance (path : List Chr) (name : NameBuf) : Decidable (AtLast path name) := inferInstanceAs (Decidable (_ = _))

theorem owes_traverseInode (left : Nat) : ∀ (s : Fs) (pi : Option InodeId) (path : List Chr) (name : NameBuf),
    Owes Fs.refs 0 (traverseInode left pi path name) s (WalkFits AtEnd left pi path name s) := by
  induction left with
  | zero => exact fun s pi path name => Owes.throw _ _
  | succ left ih => exact owes_round (fun r _ _ => Owes.pure r) fun next path t => ih t next path NameBuf.zero

theorem owes_traverseInodeParent (left : Nat) : ∀ (s : Fs) (pi : Option InodeId) (path : List Chr) (name : NameBuf),
    Owes Fs.refs 0 (traverseInodeParent left pi path name) s (WalkFits AtLast left pi path name s) := by
  induction left with
  | zero => exact fun s pi path name => Owes.throw _ _
  | succ left ih => exact owes_round (fun r name _ => Owes.pure (r, name)) fun next path t => ih t next path NameBuf.zero

/-- A walk from the root needs a place for it. -/
def StartFits (path : List Chr) (s : Fs) : Prop := path.head? = some SLASH → (s.inodeSlot EXT2_ROOT_INO).isSome

theorem owes_pathStart (s : Fs) (cwd : InodeId) (path : List Chr) :
    Owes Fs.refs 0 (pathStart cwd path) s (StartFits path s) := by
  unfold pathStart StartFits
  split
  case isTrue root => exact (owes_ext2GetInode s _).congr ⟨fun fits _ => fits, fun fits => fits root⟩
  case isFalse relative => exact (Owes.pure _).congr ⟨fun _ root => absurd root relative, fun _ => trivial⟩

/-- The inodes on the way of a path find places. -/
def PathFits (last : List Chr → NameBuf → Prop) (cwd : InodeId) (path : List Chr) (s : Fs) : Prop :=
  StartFits path s ∧ After (pathStart cwd path) s fun ino t => WalkFits last (path.length + 1) ino path NameBuf.zero t

theorem owes_ext2Path2inode (s : Fs) (cwd : InodeId) (path : List Chr) :
    Owes Fs.refs 0 (ext2Path2inode cwd path) s (PathFits AtEnd cwd path s) :=
  (owes_pathStart s cwd path).bind_after fun ino t _ => owes_traverseInode _ t ino path NameBuf.zero

theorem owes_ext2Path2inodeParent (s : Fs) (cwd : InodeId) (path : List Chr) :
    Owes Fs.refs 0 (ext2Path2inodeParent cwd path) s (PathFits AtLast cwd path s) :=
  (owes_pathStart s cwd path).bind_after fun ino t _ => owes_traverseInodeParent _ t ino path NameBuf.zero

end Walks

section Links

/-- A directory block takes a new entry, unless the walk over it faults. -/
def TakesEntry (bsize : Nat) (blk : Block) (de : NewDirent) : Prop :=
  match lastDirent bsize blk (bsize + 1) 0 0 with
  | .ok (false, d) =>
    match strlenAt blk (d + 8) with
    | .ok len => (BitVec.ofNat 64 bsize - BitVec.ofNat 64 (d + 8 + len)).toNat > de.rec_len.toNat
    | .error _ => True
  | _ => True

theorem owes_writeBlock (s : Fs) (b : BufId) (data : Except Fault Block) : Owes Fs.refs (one b) (writeBlock b data) s True := by
  unfold writeBlock
  apply Owes.bind_free (takes_lift s data)
  intro data t _
  apply Owes.bind_free (takes_setBufData _ _ _)
  intro _ u _
  apply Owes.bind_free (takes_bioWrite u b)
  intro _ v _
  exact ((owes_bioFree v b).bind_paid fun _ w _ => Owes.pure 0).congr (and_self_iff ..)

/-- The loop goes on behind a block without room, and leaves it held. -/
theorem owes_linkBlocks (pdir : InodeId) (de : NewDirent) (left : Nat) : ∀ (s : Fs) (i : Nat),
    Owes Fs.refs 0 (linkBlocks pdir de left i) s
      (left = 0 ∨ After (ext2InodeBlock pdir i) s fun b t => TakesEntry s.sb.bsize.toNat (t.bcache b).data de) := by
  induction left with
  | zero => exact fun s i => (Owes.pure none).congr ⟨fun _ => .inl rfl, fun _ => trivial⟩
  | succ left ih =>
    intro s i
    unfold linkBlocks
    apply Owes.step FsM.get_run rfl
    apply Owes.bind_taken (takes_ext2InodeBlock s pdir i)
    intro b t read
    apply Owes.step (bufData_run t b) rfl
    refine Owes.congr (P := TakesEntry s.sb.bsize.toNat (t.bcache b).data de) ?_ ?_
    · unfold TakesEntry
      cases walk : lastDirent s.sb.bsize.toNat (t.bcache b).data (s.sb.bsize.toNat + 1) 0 0 with
      | error e => exact Owes.bind_free (takes_lift t _) fun a u run => nomatch run
      | ok r =>
      obtain ⟨empty, d⟩ := r
      apply Owes.step (FsM.lift_ok rfl) rfl
      cases empty with
      | true => exact ((owes_writeBlock t b _).bind_paid fun r u _ => Owes.pure (some r)).congr (and_self_iff ..)
      | false =>
      dsimp only
      cases len : strlenAt (t.bcache b).data (d + 8) with
      | error e => exact Owes.bind_free (takes_lift t _) fun a u run => nomatch run
      | ok len =>
      apply Owes.step (FsM.lift_ok rfl) rfl
      dsimp only
      split
      case isTrue room =>
        apply ((owes_writeBlock t b _).bind_paid fun r u _ => Owes.pure (some r)).congr
        exact ⟨fun _ => room, fun _ => ⟨trivial, trivial⟩⟩
      case isFalse none =>
        exact ((ih t (i + 1)).unpaid (one_pos b)).congr (iff_of_false not_false none)
    · rw [After.iff_of_run read]
      simp

/-- The data of the first block of a directory, as the loop reads it. -/
theorem linkBlocks_first {pdir : InodeId} {de : NewDirent} {left : Nat} {s t : Fs} {r : Option Int}
    (run : linkBlocks pdir de (left + 1) 0 s = .ok (r, t)) :
    ∃ b u, ext2InodeBlock pdir 0 s = .ok (b, u) ∧ (u.bcache b).data = s.seen ((s.itable pdir).block 0) := by
  unfold linkBlocks at run
  rw [FsM.bind_of_ok FsM.get_run] at run
  obtain ⟨b, u, read, -⟩ := run_bind.1 run
  refine ⟨b, u, read, ?_⟩
  unfold ext2InodeBlock at read
  rw [FsM.bind_of_ok FsM.get_run, dif_pos (by decide)] at read
  exact (bioRead_run read).2.2.2.2

/-- A first block that takes the entry ends the loop. -/
theorem linkBlocks_takes {pdir : InodeId} {de : NewDirent} {left : Nat} {s t : Fs} {r : Option Int}
    (run : linkBlocks pdir de (left + 1) 0 s = .ok (r, t))
    (takes : TakesEntry s.sb.bsize.toNat (s.seen ((s.itable pdir).block 0)) de) : r ≠ none := by
  obtain ⟨b, u, read, data⟩ := linkBlocks_first run
  rw [← data] at takes
  unfold linkBlocks at run
  rw [FsM.bind_of_ok FsM.get_run, FsM.bind_of_ok read, FsM.bind_of_ok (bufData_run u b)] at run
  obtain ⟨⟨empty, d⟩, v, walk, run⟩ := run_bind.1 run
  unfold TakesEntry at takes
  cases walked : lastDirent s.sb.bsize.toNat (u.bcache b).data (s.sb.bsize.toNat + 1) 0 0 with
  | error e =>
    rw [walked] at walk
    cases walk
  | ok p =>
  rw [walked] at walk takes
  cases walk
  cases empty with
  | true =>
    obtain ⟨r', w, -, run⟩ := run_bind.1 run
    cases run
    nofun
  | false =>
  obtain ⟨len, w, string, run⟩ := run_bind.1 run
  cases length : strlenAt (u.bcache b).data (d + 8) with
  | error e =>
    rw [length] at string
    cases string
  | ok len' =>
  rw [length] at string
  cases string
  dsimp only at takes
  rw [length] at takes
  rw [if_pos takes] at run
  obtain ⟨r', x, -, run⟩ := run_bind.1 run
  cases run
  nofun

/-- The blocks of a directory: a first block that does not take the entry stays held. -/
theorem owes_linkBlocks_all (s : Fs) (pdir : InodeId) (de : NewDirent) (left : Nat) :
    Owes Fs.refs 0 (linkBlocks pdir de left 0) s
      (left = 0 ∨ TakesEntry s.sb.bsize.toNat (s.seen ((s.itable pdir).block 0)) de) := by
  cases left with
  | zero => exact (owes_linkBlocks pdir de 0 s 0).congr (by simp)
  | succ left =>
    intro r t run
    obtain ⟨b, u, read, data⟩ := linkBlocks_first run
    have whole := owes_linkBlocks pdir de (left + 1) s 0 r t run
    rwa [After.iff_of_run read, data] at whole

theorem takes_ext2AppendInodeBlock (s : Fs) (ino : InodeId) (blockn : Int) :
    Takes Fs.refs (ext2AppendInodeBlock ino blockn) s fun _ => 0 := by
  unfold ext2AppendInodeBlock
  apply Takes.step FsM.get_run rfl
  split
  · exact Takes.pure _
  · refine Takes.step (FsM.modify_run _) ?_ ?_
    · rfl
    · exact Takes.bind_free (takes_inodeSync _ ino) fun _ t _ => Takes.pure 0

/-- A new entry goes to the first block of its directory, or the directory is empty and gets a
block. -/
def DirlinkFits (pdir : InodeId) (de : NewDirent) (s : Fs) : Prop :=
  After (ext2SearchDir pdir (de.name ++ [0])) s fun found t => 0 < found ∨
    if (t.itable pdir).nblock = 0 then t.HasBit t.sb.block_bitmap
    else TakesEntry t.sb.bsize.toNat (t.seen ((t.itable pdir).block 0)) de

theorem owes_ext2Dirlink (s : Fs) (pdir : InodeId) (de : NewDirent) :
    Owes Fs.refs 0 (ext2Dirlink pdir de) s (DirlinkFits pdir de s) := by
  unfold ext2Dirlink DirlinkFits
  apply Owes.free_after (takes_ext2SearchDir s pdir _)
  intro found t _
  split
  case isTrue exists_ => exact (Owes.pure (-1)).congr ⟨fun _ => .inl exists_, fun _ => trivial⟩
  case isFalse new =>
  apply Owes.step FsM.get_run rfl
  apply ((owes_linkBlocks_all t pdir de _).bind_after
    (D := fun r u => r = none → (u.itable pdir).nblock = 0 → u.HasBit u.sb.block_bitmap) ?_).congr ?_
  · intro r u _
    cases r with
    | some r => exact (Owes.pure r).congr ⟨fun _ none => (nomatch none), fun _ => trivial⟩
    | none =>
    apply Owes.step FsM.get_run rfl
    split
    case isFalse some => exact (Owes.pure (-1)).congr ⟨fun _ _ zero => absurd zero some, fun _ => trivial⟩
    case isTrue zero =>
      apply ((owes_allocBit u Superblock.block_bitmap le_rfl).bind (Q := True) ?_).congr ?_
      · intro bn v _
        apply Owes.bind_free (takes_ext2AppendInodeBlock v pdir bn)
        intro _ w _
        apply Owes.bind_taken (takes_bioRead w _)
        intro b x _
        apply Owes.bind_free (takes_bufData x b)
        exact fun data y _ => owes_writeBlock y b _
      · exact ⟨fun fits _ _ => fits.1, fun fits => ⟨fits rfl zero, trivial⟩⟩
  · rw [or_iff_right new]
    cases blocks : (t.itable pdir).nblock with
    | zero =>
      have none : linkBlocks pdir de 0 0 t = .ok (none, t) := rfl
      rw [After.iff_of_run none, if_pos rfl, blocks]
      exact ⟨fun fits => fits.2 rfl rfl, fun fits => ⟨.inl rfl, fun _ _ => fits⟩⟩
    | succ n =>
      rw [if_neg n.succ_ne_zero, or_iff_right n.succ_ne_zero]
      exact ⟨And.left, fun takes => ⟨takes, fun r u run none => absurd none (linkBlocks_takes run takes)⟩⟩

/-- The two entries of a new directory. -/
def DotsFit (ino dir : InodeId) (s : Fs) : Prop :=
  let s := s.setInode dir fun x => { x with links_count := x.links_count + 1 }
  DirlinkFits ino (makeDirent (s.itable ino).inum [46#8] 2#8) s ∧
    After (ext2Dirlink ino (makeDirent (s.itable ino).inum [46#8] 2#8)) s fun r t => 0 ≤ r →
      DirlinkFits ino (makeDirent (t.itable dir).inum [46#8, 46#8] 2#8) t

theorem owes_linkDots (s : Fs) (ino dir : InodeId) : Owes Fs.refs 0 (linkDots ino dir) s (DotsFit ino dir s) := by
  unfold linkDots DotsFit
  refine Owes.step (FsM.modify_run _) ?_ ?_
  · rfl
  apply Owes.step FsM.get_run rfl
  apply (owes_ext2Dirlink _ ino _).bind_after
  intro r t _
  split
  case isTrue neg => exact (Owes.pure false).congr ⟨fun _ nonneg => absurd neg (by omega), fun _ => trivial⟩
  case isFalse nonneg =>
  apply Owes.step FsM.get_run rfl
  apply ((owes_ext2Dirlink t ino _).bind (Q := True) ?_).congr ?_
  · intro r u _
    split
    · exact Owes.pure false
    · refine Owes.step (FsM.modify_run _) ?_ (Owes.pure true)
      rfl
  · exact ⟨fun fits _ => fits.1, fun fits => ⟨fits (by omega), trivial⟩⟩

/-- What the file type of a new inode asks for. -/
def TypeFits (ino dir : InodeId) (mode : BitVec 32) (s : Fs) : Prop :=
  mode &&& S_IFMT.setWidth 32 = S_IFDIR.setWidth 32 → DotsFit ino dir s

theorem owes_newByType (s : Fs) (ino dir : InodeId) (mode : BitVec 32) :
    Owes Fs.refs 0 (newByType ino dir mode) s (TypeFits ino dir mode s) := by
  unfold newByType TypeFits
  split
  case isTrue isDir => exact (owes_linkDots s ino dir).congr ⟨fun fits _ => fits, fun fits => fits isDir⟩
  case isFalse other =>
    refine Owes.step (FsM.modify_run _) ?_ ((Owes.pure true).congr ?_)
    · split <;> rfl
    · exact ⟨fun _ isDir => absurd isDir other, fun _ => trivial⟩

/-- The link of a new inode to its directory. -/
def LinkFits (name : List (BitVec 8)) (ino dir : InodeId) (s : Fs) : Prop :=
  ∀ file_type, imode2dtype (s.itable ino).mode = .ok file_type → DirlinkFits dir (makeDirent (s.itable ino).inum name file_type) s

theorem owes_linkNew (s : Fs) (name : List (BitVec 8)) (ino dir : InodeId) :
    Owes Fs.refs 0 (linkNew name ino dir) s (LinkFits name ino dir s) := by
  unfold linkNew LinkFits
  apply Owes.step FsM.get_run rfl
  cases type : imode2dtype (s.itable ino).mode with
  | error e => exact Owes.bind_free (takes_lift s _) fun a t run => nomatch run
  | ok file_type =>
  apply Owes.step (FsM.lift_ok rfl) rfl
  apply ((owes_ext2Dirlink s dir _).bind (Q := True) ?_).congr ?_
  · intro r t _
    split
    · exact Owes.pure none
    · apply Owes.of_takes
      apply Takes.bind_free (takes_inodeSync t ino)
      intro _ u _
      apply Takes.bind_free (takes_inodeSync u dir)
      exact fun _ v _ => Takes.pure (some ino)
  · refine ⟨fun fits type' same => ?_, fun fits => ⟨fits file_type rfl, trivial⟩⟩
    cases same
    exact fits.1

/-- A new inode finds its bit, and its entries find room. -/
def NewFits (name : List (BitVec 8)) (dir : InodeId) (mode dev : BitVec 32) (s : Fs) : Prop :=
  s.HasBit s.sb.inode_bitmap ∧ After ext2AllocInode s fun ino t => ∀ i, ino = some i →
    let t := t.setInode i fun x => x.asNew mode dev
    TypeFits i dir mode t ∧ After (newByType i dir mode) t fun dots u => dots = true → LinkFits name i dir u

theorem owes_ext2NewInode (s : Fs) (name : List (BitVec 8)) (dir : InodeId) (mode dev : BitVec 32) :
    Owes Fs.refs 0 (ext2NewInode name dir mode dev) s (NewFits name dir mode dev s) := by
  rw [ext2NewInode_eq]
  have alloc : Owes Fs.refs 0 ext2AllocInode s (s.HasBit s.sb.inode_bitmap) := by
    unfold ext2AllocInode
    apply ((owes_allocBit s Superblock.inode_bitmap (by decide)).bind (Q := True) ?_).congr (by simp)
    intro inum t _
    split
    · exact Owes.pure none
    · exact Owes.of_takes (takes_findInode t _)
  apply alloc.bind_after
  intro ino t _
  cases ino with
  | none => exact (Owes.pure none).congr ⟨fun _ i none => (nomatch none), fun _ => trivial⟩
  | some i =>
  refine Owes.step (FsM.modify_run _) ?_ (((owes_newByType _ i dir mode).bind_after
    (D := fun dots u => dots = true → LinkFits name i dir u) ?_).congr ?_)
  · rfl
  · intro dots u _
    cases dots with
    | false => exact (Owes.pure none).congr ⟨fun _ no => (nomatch no), fun _ => trivial⟩
    | true => exact (owes_linkNew u name i dir).congr ⟨fun fits _ => fits, fun fits => fits rfl⟩
  · refine ⟨fun fits j same => ?_, fun fits => fits i rfl⟩
    cases same
    exact fits

/-- `mknod` finds the parent, and what a new inode in it needs. -/
def MknodFits (cwd : InodeId) (path : List Chr) (mode dev : BitVec 32) (s : Fs) : Prop :=
  PathFits AtLast cwd path s ∧ After (ext2Path2inodeParent cwd path) s fun r t => ∀ pdir, r.1 = some pdir →
    NewFits r.2.str pdir mode dev t

theorem owes_ext2Mknod (s : Fs) (cwd : InodeId) (path : List Chr) (mode dev : BitVec 32) :
    Owes Fs.refs 0 (ext2Mknod cwd path mode dev) s (MknodFits cwd path mode dev s) := by
  unfold ext2Mknod
  apply (owes_ext2Path2inodeParent s cwd path).bind_after
  rintro ⟨pdir, namebuf⟩ t _
  cases pdir with
  | none => exact (Owes.pure none).congr ⟨fun _ i none => (nomatch none), fun _ => trivial⟩
  | some pdir =>
    apply (owes_ext2NewInode t namebuf.str pdir mode dev).congr
    refine ⟨fun fits j same => ?_, fun fits => fits pdir rfl⟩
    cases same
    exact fits

end Links

/-- A call of a public function. -/
inductive Ext2Call where
  | lookup (cwd : InodeId) (path : List Chr)
  | load (inum : BitVec 32)
  | read (ino : InodeId) (off size : BitVec 64)
  | write (ino : InodeId) (buf : Nat → BitVec 8) (off size : BitVec 64)
  | mkdir (cwd : InodeId) (path : List Chr)
  | mknod (cwd : InodeId) (path : List Chr) (mode dev : BitVec 32)

/-- A call whose result is dropped. -/
def dropResult {α : Type} (f : FsM α) : FsM Unit := f >>= fun _ => pure ()

def Ext2Call.run : Ext2Call → FsM Unit
  | lookup cwd path => dropResult (ext2Path2inode cwd path)
  | load inum => dropResult (ext2GetInode inum)
  | read ino off size => dropResult (ext2ReadInode ino off size)
  | write ino buf off size => dropResult (ext2WInode ino buf off size)
  | mkdir cwd path => dropResult (ext2Mkdir cwd path)
  | mknod cwd path mode dev => dropResult (ext2Mknod cwd path mode dev)

/-- The call comes to none of the exits that keep a buffer. -/
def Ext2Call.Fits : Ext2Call → Fs → Prop
  | lookup cwd path, s => PathFits AtEnd cwd path s
  | load inum, s => (s.inodeSlot inum).isSome
  | read .., _ => True
  | write ino _ off size, s => WriteFits ino off size s
  | mkdir cwd path, s => MknodFits cwd path (S_IFDIR.setWidth 32) 0 s
  | mknod cwd path mode dev, s => MknodFits cwd path mode dev s

/-- Calls in a row, started in any state; a call that does not return ends the run. -/
def ext2Calls : System Fs Ext2Call where
  init _ := True
  step s call := (call.run s).toOption.map Prod.snd

/-- Each call keeps buffers exactly when it comes to one of these exits. -/
theorem Ext2Call.owes (call : Ext2Call) (s : Fs) : Owes Fs.refs 0 call.run s (call.Fits s) := by
  have drop : ∀ {α : Type} {f : FsM α} {P : Prop}, Owes Fs.refs 0 f s P → Owes Fs.refs 0 (dropResult f) s P :=
    fun h => (h.bind fun a t _ => Owes.pure ()).congr (and_iff_left trivial)
  cases call with
  | lookup cwd path => exact drop (owes_ext2Path2inode s cwd path)
  | load inum => exact drop (owes_ext2GetInode s inum)
  | read ino off size => exact drop (Owes.of_takes (takes_ext2ReadInode s ino off size))
  | write ino buf off size => exact drop (owes_ext2WInode s ino buf off size)
  | mkdir cwd path => exact drop (owes_ext2Mknod s cwd path _ 0)
  | mknod cwd path mode dev => exact drop (owes_ext2Mknod s cwd path mode dev)

/-- One call. -/
theorem Ext2Call.refs_iff {s t : Fs} {call : Ext2Call} (step : ext2Calls.step s call = some t) :
    t.refs = s.refs ↔ call.Fits s := by
  obtain ⟨⟨_, u⟩, run, rfl⟩ := Option.map_eq_some_iff.1 step
  have ran : call.run s = .ok ((), u) := by
    cases result : call.run s with
    | error e =>
      rw [result] at run
      cases run
    | ok r =>
      rw [result] at run
      cases run
      rfl
  have paid := (call.owes s () u ran).2
  rwa [add_zero] at paid

/-- **Every buffer is given back** by a call that returns exactly when it comes to no full
bitmap, no full inode table and no directory block without room. Then calls in a row, however
many, leave as many buffers free as there were. -/
theorem buffers_given_back_iff (s : Fs) :
    (∀ t call, ext2Calls.step s call = some t → ((∀ b, (t.bcache b).ref = (s.bcache b).ref) ↔ call.Fits s)) ∧
    ∀ t, (ext2Calls.startingAt s).Via (fun u call => call.Fits u) t →
      (∀ b, (t.bcache b).ref = (s.bcache b).ref) ∧ (s.Spare → t.Spare) := by
  refine ⟨fun t call step => ?_, fun t run => ?_⟩
  · rw [← Ext2Call.refs_iff step]
    exact ⟨fun same => funext same, fun same b => congrFun same b⟩
  · have same : t.refs = s.refs := by
      apply System.Via.invariant (I := fun u => u.refs = s.refs) _ _ run
      · rintro u rfl
        rfl
      · intro u call v same fits step
        rw [(Ext2Call.refs_iff (s := u) step).2 fits, same]
    refine ⟨fun b => congrFun same b, ?_⟩
    rintro ⟨b, d, ne, free, free'⟩
    exact ⟨b, d, ne, (congrFun same b).trans free, (congrFun same d).trans free'⟩

/-- Loading the root of the small volume. -/
theorem buffers_given_back_iff_root : ∃ t, ext2Calls.step treeFs (.load 2#32) = some t ∧ ∀ b, (t.bcache b).ref = (treeFs.bcache b).ref := by
  obtain ⟨t, run⟩ : ∃ t, ext2GetInode 2#32 treeFs = .ok (some 0, t) := by
    have place : (treeFs.load 2#32).map Prod.fst = some 0 := by decide +kernel
    obtain ⟨⟨_, t⟩, loaded, rfl⟩ := Option.map_eq_some_iff.1 place
    exact ⟨t, treeFs_wellFormed.coherent.ext2GetInode_load treeFs_wellFormed.spare treeFs_wellFormed.records loaded⟩
  have step : ext2Calls.step treeFs (.load 2#32) = some t := by
    have ran : (Ext2Call.load 2#32).run treeFs = .ok ((), t) := FsM.bind_of_ok run
    simp only [ext2Calls, ran]
    rfl
  have fits : (Ext2Call.load 2#32).Fits treeFs := by
    show (treeFs.inodeSlot 2#32).isSome
    decide +kernel
  exact ⟨t, step, ((buffers_given_back_iff treeFs).2 t (.step (.init rfl) fits step)).1⟩

/-- The small volume with its inode bitmap, in block 5, full. -/
def fullVolume (bno : BitVec 32) : Block := fun i =>
  if bno = 5#32 then 0xff#8 else if bno = 2#32 ∧ (i : Nat) = 4 then 5#8 else treeVolume bno i

/-- `mknod("/x")` there fails, and leaves the bitmap's buffer held. -/
theorem full_bitmap_stays_held : ∃ s t, ext2Init (Fs.boot fullVolume) = .ok ((), s) ∧
    ext2Calls.step s (.mknod 0 [SLASH, X] 0x81a4#32 0) = some t ∧ (s.bcache 0).ref = 0 ∧ (t.bcache 0).ref = 1 ∧
    ¬ ∀ s t call, ext2Calls.step s call = some t → ∀ b, (t.bcache b).ref = (s.bcache b).ref := by
  let s := { Fs.boot fullVolume with sb := superblockOf (fullVolume 1#32) (fullVolume 2#32) }
  have mounted : ext2Init (Fs.boot fullVolume) = .ok ((), s) := Fs.boot_mounts (by decide +kernel)
  have held : (ext2Calls.step s (.mknod 0 [SLASH, X] 0x81a4#32 0)).map (fun t => (t.bcache 0).ref) = some 1 := by
    decide +kernel
  obtain ⟨t, step, ref⟩ := Option.map_eq_some_iff.1 held
  refine ⟨s, t, mounted, step, rfl, ref, fun claim => ?_⟩
  have same := claim s t _ step 0
  rw [ref] at same
  cases same

end Aarch64Os.Kernel
