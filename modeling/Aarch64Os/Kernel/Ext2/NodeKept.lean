import Aarch64Os.Kernel.Ext2.InodeRefs
import Aarch64Os.Kernel.Ext2.Record
import Aarch64Os.Kernel.Ext2.Steady

/-!
# A node keeps its type and device (`kernel/ext2.c`)

`ext2_new_inode` sets the type and device of an entry and stores the record, which has the type
but no device. Each lookup that comes to the inode loads it anew. The type it finds is the same as
long as the entry is not taken by another inode and the record is not written by another.
-/

namespace Aarch64Os.Kernel
set_option autoImplicit false
open Base

/-- No inode is in two entries of the table. -/
structure Fs.Distinct (s : Fs) : Prop where
  within : ∀ i, (s.itable i).inum ≠ 0 → i < NINODE
  once : ∀ i j, (s.itable i).inum ≠ 0 → (s.itable i).inum = (s.itable j).inum → i = j

/-- Buffers show the disk, and inodes are in the table once. -/
structure Fs.Sane (s : Fs) : Prop where
  mirrored : s.Mirrored
  distinct : s.Distinct

/-- The entry has this type and device, and the record of its inode has the type. -/
structure Fs.Keeps (s : Fs) (node : InodeId) (mode : BitVec 16) (dev : BitVec 32) : Prop where
  sane : s.Sane
  records : s.sb.Records
  pos : s.record node ≠ 0
  number : (s.itable node).inum ≠ 0
  held : (s.itable node).ref ≠ 0
  type : (s.itable node).mode = mode
  device : (s.itable node).major = dev
  stored : (s.inodeOn (s.itable node).inum).mode = mode

section Sane
variable {s t : Fs} {inum : BitVec 32} {i node : InodeId} {held : Bool} {mode : BitVec 16} {dev : BitVec 32}

theorem Fs.Distinct.congr (h : s.Distinct) (same : ∀ j, (t.itable j).inum = (s.itable j).inum) : t.Distinct := by
  constructor
  · intro j pos
    rw [same] at pos
    exact h.within j pos
  · intro j k pos eq
    rw [same] at pos eq
    rw [same] at eq
    exact h.once j k pos eq

/-- The entry that `find_inode` takes gets the number. -/
theorem Fs.Distinct.number (h : s.Distinct) (slot : s.inodeSlot inum = some (i, held)) {x : Inode} (own : x.inum = inum)
    (table : t.itable = Function.update s.itable i x) : t.Distinct := by
  have self : (t.itable i).inum = inum := by rw [table, Function.update_self, own]
  have other : ∀ j, j ≠ i → t.itable j = s.itable j := fun j ne => by rw [table, Function.update_of_ne ne]
  cases held with
  | true =>
    apply h.congr
    intro j
    rcases eq_or_ne j i with rfl | ne
    · rw [self, Fs.inodeSlot_held slot]
    · rw [other j ne]
  | false =>
    obtain ⟨-, fresh⟩ := Fs.inodeSlot_new slot
    -- no other entry has the number
    have alone : ∀ j, j ≠ i → inum ≠ 0 → (t.itable j).inum ≠ inum := by
      intro j ne pos same
      rw [other j ne] at same
      exact fresh j (h.within j (by rwa [same])) same
    constructor
    · intro j pos
      rcases eq_or_ne j i with rfl | ne
      · exact Fs.inodeSlot_lt slot
      · rw [other j ne] at pos
        exact h.within j pos
    · intro j k pos same
      rcases eq_or_ne j i with rfl | ne
      · by_contra ne'
        rw [self] at pos same
        exact alone k (Ne.symm ne') pos same.symm
      · rcases eq_or_ne k i with rfl | ne'
        · rw [self] at same
          exact absurd same (alone j ne (by rwa [← same]))
        · rw [other j ne] at pos same
          rw [other k ne'] at same
          exact h.once j k pos same

theorem Fs.Steady.sane (steady : s.Steady t) (h : s.Sane) : t.Sane :=
  ⟨steady.mirrored h.mirrored, h.distinct.congr fun j => (steady.entry j).inum⟩

/-- A change of one entry that leaves its number alone. -/
theorem Fs.Sane.setInode (h : s.Sane) {f : Inode → Inode} (same : (f (s.itable i)).inum = (s.itable i).inum) :
    (s.setInode i f).Sane := by
  constructor
  · exact ⟨h.mirrored.clear, h.mirrored.shows, h.mirrored.once⟩
  · apply h.distinct.congr
    intro j
    show (Function.update s.itable i (f (s.itable i)) j).inum = (s.itable j).inum
    rcases eq_or_ne j i with rfl | ne
    · rw [Function.update_self, same]
    · rw [Function.update_of_ne ne]

/-- `find_inode` returns an entry with the number. -/
theorem sane_findInode (s : Fs) (inum : BitVec 32) : After (findInode inum) s fun r t =>
    t.sb = s.sb ∧ (s.Sane → t.Sane) ∧ ∀ i, r = some i → (t.itable i).inum = inum := by
  intro r t run
  unfold findInode at run
  have found : ∀ i held (x : Inode), s.inodeSlot inum = some (i, held) → x.inum = inum →
      t = { s with itable := Function.update s.itable i x } → r = some i →
      t.sb = s.sb ∧ (s.Sane → t.Sane) ∧ ∀ i, r = some i → (t.itable i).inum = inum := by
    rintro i held x slot own rfl rfl
    refine ⟨rfl, fun h => ⟨⟨h.mirrored.clear, h.mirrored.shows, h.mirrored.once⟩, h.distinct.number slot own rfl⟩, ?_⟩
    rintro _ ⟨⟩
    show (Function.update s.itable i x i).inum = inum
    rw [Function.update_self, own]
  split at run
  case h_1 i slot =>
    cases run
    exact found i true { s.itable i with ref := (s.itable i).ref + 1 } slot (Fs.inodeSlot_held slot) rfl rfl
  case h_2 i slot =>
    cases run
    exact found i false { s.itable i with ref := (s.itable i).ref + 1, inum := inum } slot rfl rfl rfl
  case h_3 =>
    cases run
    exact ⟨rfl, id, (by intro i never; cases never)⟩

/-- `ext2_get_inode` fills the entry from the record, as the buffers show it. -/
theorem mirrored_ext2GetInode (s : Fs) (inum : BitVec 32) : After (ext2GetInode inum) s fun r t =>
    t.disk = s.disk ∧ t.sb = s.sb ∧ (s.Mirrored → t.Mirrored) ∧
      match s.inodeSlot inum with
      | none => r = none ∧ t.itable = s.itable
      | some (i, _) => r = some i ∧ ∃ data, (s.Mirrored → s.sb.recordBlock inum ≠ 0 → data = s.disk (s.sb.recordBlock inum)) ∧
        t.itable = Function.update s.itable i ((s.itable i).fillFrom inum data (s.sb.recordOff inum)) := by
  unfold ext2GetInode
  cases slot : s.inodeSlot inum with
  | none =>
    have find : findInode inum s = .ok (none, s) := by simp only [findInode, slot]
    refine After.step find ?_
    refine After.bind (mirrored_ext2RawInode s inum) ?_
    rintro ⟨b, off⟩ t ⟨quiet, steady, -⟩
    exact After.pure ⟨quiet.disk, quiet.sb, steady.mirrored, rfl, quiet.itable⟩
  | some p =>
    obtain ⟨i, held⟩ := p
    obtain ⟨g, find, same⟩ := findInode_ok slot
    refine After.step find ?_
    refine After.bind (mirrored_ext2RawInode _ inum) ?_
    rintro ⟨b, off⟩ t ⟨quiet, steady, -, -, rfl, shows⟩
    have still : s.Mirrored → (s.setInode i g).Mirrored := fun h => ⟨h.clear, h.shows, h.once⟩
    dsimp only
    refine After.step (bufData_runs t b) ?_
    split
    case isFalse => exact After.throw _
    case isTrue =>
      refine After.step (FsM.modify_run _) ?_
      refine After.bind ((quiet_bioFree _ b).and (mirrored_bioFree _ b)) ?_
      rintro _ u ⟨quiet', freed⟩
      apply After.pure
      refine ⟨quiet'.disk.trans quiet.disk, quiet'.sb.trans quiet.sb, fun h => ?_, rfl, (t.bcache b).data, fun h => shows (still h), ?_⟩
      · obtain ⟨clear, shows, once⟩ := steady.mirrored (still h)
        exact freed ⟨clear, shows, once⟩
      · rw [quiet'.itable]
        show Function.update t.itable i ((t.itable i).decode _ _) = _
        rw [quiet.itable]
        simp only [Fs.setInode, Function.update_self, Function.update_idem, same]

theorem sane_ext2GetInode (s : Fs) (inum : BitVec 32) : After (ext2GetInode inum) s fun _ t => t.sb = s.sb ∧ (s.Sane → t.Sane) := by
  refine (mirrored_ext2GetInode s inum).mono ?_
  rintro r t ⟨-, sb, mirrored, filled⟩
  refine ⟨sb, fun h => ⟨mirrored h.mirrored, ?_⟩⟩
  split at filled
  case h_1 =>
    apply h.distinct.congr
    intro j
    rw [filled.2]
  case h_2 i held slot =>
    obtain ⟨-, data, -, table⟩ := filled
    exact h.distinct.number slot rfl table

/-- So do lookups. -/
theorem sane_rule : LoadRule fun _ s t => t.sb = s.sb ∧ (s.Sane → t.Sane) where
  refl _ := ⟨rfl, id⟩
  trans first second := ⟨second.1.trans first.1, fun h => second.2 (first.2 h)⟩
  search s dir name := (steady_ext2SearchDir s dir name).mono fun _ _ steady => ⟨steady.sb, steady.sane⟩
  load := sane_ext2GetInode

end Sane

section Keeps
variable {s t : Fs} {node : InodeId} {mode : BitVec 16} {dev : BitVec 32}

/-- The entry and the record are of the inode and the type they were of. -/
theorem Fs.Keeps.of (h : s.Keeps node mode dev) (sane : t.Sane) (sb : t.sb = s.sb)
    (number : (t.itable node).inum = (s.itable node).inum) (type : (t.itable node).mode = mode)
    (device : (t.itable node).major = (s.itable node).major) (held : (t.itable node).ref ≠ 0)
    (stored : (t.inodeOn (s.itable node).inum).mode = mode) : t.Keeps node mode dev where
  sane := sane
  records := sb.symm ▸ h.records
  pos := by
    unfold Fs.record
    rw [sb, number]
    exact h.pos
  number := by
    rw [number]
    exact h.number
  held := held
  type := type
  device := device.trans h.device
  stored := by rw [number, stored]

theorem Fs.Keeps.steady (h : s.Keeps node mode dev) (steady : s.Steady t)
    (stored : (t.inodeOn (s.itable node).inum).mode = mode) : t.Keeps node mode dev := by
  have same := steady.entry node
  refine h.of (steady.sane h.sane) steady.sb same.inum (same.mode.trans h.type) same.major ?_ stored
  rw [same.ref]
  exact h.held

/-- A step that takes references to inodes, and keeps the node unless its count passes the end. -/
def KeepsNode (node : InodeId) (mode : BitVec 16) (dev : BitVec 32) (loads : List InodeId) (s t : Fs) : Prop :=
  t.irefs = s.irefs + loadCount loads ∧
    (s.Keeps node mode dev → (s.irefs node).toNat + loads.count node < 2 ^ 32 → t.Keeps node mode dev)

/-- Nothing is loaded or written. -/
theorem keepsNode_quiet (quiet : s.Quiet t) (steady : s.Steady t) : KeepsNode node mode dev [] s t := by
  constructor
  · rw [irefs_of_itable quiet.itable]
    exact (add_zero _).symm
  · intro h _
    apply h.steady steady
    rw [Fs.inodeOn_congr quiet.disk quiet.sb, h.stored]

/-- The node is loaded with the type it has, and no other inode takes its entry. -/
theorem keeps_ext2GetInode (s : Fs) (inum : BitVec 32) :
    After (ext2GetInode inum) s fun r t => KeepsNode node mode dev r.toList s t := by
  refine (((mirrored_ext2GetInode s inum).and (sane_ext2GetInode s inum)).and (irefs_ext2GetInode s inum)).mono ?_
  rintro r t ⟨⟨⟨disk, sb, -, filled⟩, -, sane⟩, taken⟩
  refine ⟨taken, fun h few => ?_⟩
  have onDisk := Fs.inodeOn_congr disk sb
  have other : t.itable node = s.itable node → t.Keeps node mode dev := by
    intro same
    refine h.of (sane h.sane) sb (by rw [same]) (by rw [same, h.type]) (by rw [same]) ?_ ?_
    · rw [same]
      exact h.held
    · rw [onDisk]
      exact h.stored
  split at filled
  case h_1 => exact other (by rw [filled.2])
  case h_2 i held slot =>
  obtain ⟨rfl, data, shows, table⟩ := filled
  rcases eq_or_ne node i with rfl | ne
  case inr => exact other (by rw [table, Function.update_of_ne ne])
  case inl =>
  cases held with
  | false => exact absurd (congrArg BitVec.toNat (Fs.inodeSlot_new slot).1) (fun zero => h.held (BitVec.eq_of_toNat_eq zero))
  | true =>
  obtain rfl := Fs.inodeSlot_held slot
  have self : t.itable node = (s.itable node).fillFrom (s.itable node).inum data (s.sb.recordOff (s.itable node).inum) := by
    rw [table, Function.update_self]
  have fresh := shows h.sane.mirrored h.pos
  subst fresh
  refine h.of (sane h.sane) sb (by rw [self]; rfl) ?_ (by rw [self]; rfl) ?_ ?_
  · rw [self]
    exact h.stored
  · -- one reference more does not pass the end
    have one : (s.irefs node).toNat + 1 < 2 ^ 32 := by simpa using few
    rw [self]
    intro zero
    have value : ((s.irefs node).toNat + 1) % 2 ^ 32 = 0 := congrArg BitVec.toNat zero
    omega
  · rw [onDisk]
    exact h.stored

/-- **A lookup keeps the node.** -/
theorem keeps_rule (node : InodeId) (mode : BitVec 16) (dev : BitVec 32) : LoadRule (KeepsNode node mode dev) where
  refl s := ⟨(add_zero _).symm, fun h _ => h⟩
  trans first second := by
    refine ⟨?_, fun h few => ?_⟩
    · rw [second.1, first.1, loadCount_append, add_assoc]
    · rw [List.count_append] at few
      refine second.2 (first.2 h (by omega)) ?_
      rw [first.1, Pi.add_apply, loadCount_apply, BitVec.toNat_add, BitVec.toNat_ofNat, Nat.add_mod_mod,
        Nat.mod_eq_of_lt (by omega)]
      omega
  search s dir name := by
    refine ((quiet_ext2SearchDir s dir name).and (steady_ext2SearchDir s dir name)).mono ?_
    exact fun _ t kept => keepsNode_quiet kept.1 kept.2
  load := keeps_ext2GetInode

/-- A read does. -/
theorem keeps_ext2ReadInode (s : Fs) (ino : InodeId) (off size : BitVec 64) :
    After (ext2ReadInode ino off size) s fun _ t => s.Keeps node mode dev → t.Keeps node mode dev := by
  refine ((steady_ext2ReadInode s ino off size).and (quiet_ext2ReadInode s ino off size)).mono ?_
  rintro _ t ⟨steady, quiet⟩ h
  apply h.steady steady
  rw [Fs.inodeOn_congr quiet.disk quiet.sb, h.stored]

/-- A record behind `inode_sync`: that of the inode, or one as it was. -/
theorem inodeOn_inodeSync (s : Fs) (ino : InodeId) : After (inodeSync ino) s fun _ t =>
    s.Mirrored → s.sb.Records → ∀ n, s.sb.recordBlock n ≠ 0 →
      (t.inodeOn n).mode = if n = (s.itable ino).inum then (s.itable ino).mode else (s.inodeOn n).mode := by
  refine (mirrored_inodeSync s ino).mono ?_
  rintro _ t ⟨steady, fits, data, shows, disk⟩ mirrored records n pos
  by_cases zero : s.record ino = 0
  · -- what is written is not the block of the record
    have ne : n ≠ (s.itable ino).inum := by
      rintro rfl
      exact pos zero
    have other : s.sb.recordBlock n ≠ s.record ino := by
      rw [zero]
      exact pos
    rw [if_neg ne]
    unfold Fs.inodeOn
    rw [steady.sb, disk, Function.update_of_ne other]
  · rw [shows mirrored zero] at disk
    rw [Fs.inodeOn_sync records fits steady.sb disk n]
    split <;> rfl

/-- A write stores the record in the end, unless it is refused. -/
theorem steady_ext2WInode (s : Fs) (ino : InodeId) (buf : Nat → BitVec 8) (off size : BitVec 64) :
    After (ext2WInode ino buf off size) s fun _ t => s.Steady t ∧ (s.Mirrored → s.sb.Records → s.record ino ≠ 0 →
      t = s ∨ (t.inodeOn (s.itable ino).inum).mode = (s.itable ino).mode) := by
  unfold ext2WInode
  refine After.step FsM.get_run ?_
  dsimp only
  split
  · exact After.pure ⟨.refl s, fun _ _ _ => .inl rfl⟩
  refine After.step (FsM.set_run _) ?_
  have sized : s.Steady (if (off + size).toNat > (s.itable ino).size.toNat then
      s.setInode ino fun x => { x with size := (off + size).setWidth 32 } else s) := by
    split
    · exact .setInode ⟨rfl, rfl, rfl, rfl⟩
    · exact .refl s
  split
  · exact After.throw _
  refine After.bind (steady_growTo _ ino _) ?_
  intro _ t grown
  refine After.step FsM.get_run ?_
  refine After.bind (steady_writeBlocks ino buf _ _ _ t _ _ _ _) ?_
  intro _ u written
  have before : s.Steady u := (sized.trans grown).trans written
  refine After.bind ((steady_inodeSync u ino).and (inodeOn_inodeSync u ino)) ?_
  rintro _ v ⟨synced, record⟩
  refine After.pure ⟨before.trans synced, fun mirrored records pos => .inr ?_⟩
  have same := before.entry ino
  have here := record (before.mirrored mirrored) (by rw [before.sb]; exact records) (s.itable ino).inum (by rw [before.sb]; exact pos)
  rwa [if_pos same.inum.symm, same.mode] at here

theorem keeps_ext2WInode (s : Fs) (node : InodeId) (buf : Nat → BitVec 8) (off size : BitVec 64) :
    After (ext2WInode node buf off size) s fun _ t => s.Keeps node mode dev → t.Keeps node mode dev := by
  refine (steady_ext2WInode s node buf off size).mono ?_
  rintro _ t ⟨steady, stored⟩ h
  obtain rfl | here := stored h.sane.mirrored h.records h.pos
  · exact h
  · exact h.steady steady (here.trans h.type)

end Keeps

section Made

/-- A number that `ext2_alloc_inum` returns is not 0. -/
theorem number_ext2AllocInum (s : Fs) : After ext2AllocInum s fun inum t =>
    s.Steady t ∧ (0 ≤ inum → BitVec.ofInt 32 inum ≠ 0) := by
  refine (steady_allocBit s _ 1).and ?_
  unfold allocBit
  refine After.step FsM.get_run ?_
  refine After.behind fun b t => ?_
  refine After.step (bufData_runs t b) ?_
  refine After.bind (after_lift t _) ?_
  rintro num _ ⟨found, rfl⟩
  split
  · exact After.pure fun nonneg => absurd nonneg (by decide)
  refine After.behind fun _ u => After.behind fun _ v => After.pure fun _ => ?_
  obtain ⟨rfl, -⟩ | ⟨k, rfl, -, low, -⟩ := findFree_ok found
  · omega
  · intro zero
    have small : 1 + k < 2 ^ 32 := by
      simp only [BUFSIZE] at low
      omega
    have value := congrArg BitVec.toNat zero
    rw [show (1 : Int) + k = ((1 + k : Nat) : Int) by omega, BitVec.ofInt_natCast, BitVec.toNat_ofNat,
      Nat.mod_eq_of_lt small] at value
    change 1 + k = 0 at value
    omega

/-- The entry of a new inode has its number. -/
theorem sane_ext2AllocInode (s : Fs) : After ext2AllocInode s fun r t =>
    t.sb = s.sb ∧ (s.Sane → t.Sane) ∧ ∀ ino, r = some ino → (t.itable ino).inum ≠ 0 := by
  unfold ext2AllocInode
  refine After.bind (number_ext2AllocInum s) ?_
  rintro inum t ⟨steady, number⟩
  split
  case isTrue => exact After.pure ⟨steady.sb, steady.sane, (by intro ino never; cases never)⟩
  case isFalse nonneg =>
    refine (sane_findInode t _).mono ?_
    rintro r u ⟨sb, sane, own⟩
    refine ⟨sb.trans steady.sb, fun h => sane (steady.sane h), fun ino eq => ?_⟩
    rw [own ino eq]
    exact number (by omega)

/-- `ext2_new_inode` from the link on: the type has a place in the table, and the records of the
inode and of its parent are stored. -/
theorem steady_linkNew (s : Fs) (name : List (BitVec 8)) (ino dir : InodeId) : After (linkNew name ino dir) s fun r t =>
    s.Steady t ∧ ∀ node, r = some node → node = ino ∧ (∃ file_type, imode2dtype (s.itable ino).mode = .ok file_type) ∧
      (s.Sane → s.sb.Records → (s.itable ino).inum ≠ 0 → s.record ino ≠ 0 →
        (t.inodeOn (s.itable ino).inum).mode = (s.itable ino).mode) := by
  unfold linkNew
  refine After.step FsM.get_run ?_
  refine After.bind (after_lift s _) ?_
  rintro file_type _ ⟨found, rfl⟩
  refine After.bind (steady_ext2Dirlink s dir _) ?_
  intro r t linked
  split
  · exact After.pure ⟨linked, (by intro node never; cases never)⟩
  refine After.bind ((steady_inodeSync t ino).and (inodeOn_inodeSync t ino)) ?_
  rintro _ u ⟨first, record⟩
  refine After.bind ((steady_inodeSync u dir).and (inodeOn_inodeSync u dir)) ?_
  rintro _ v ⟨second, record'⟩
  refine After.pure ⟨(linked.trans first).trans second, ?_⟩
  rintro _ ⟨⟩
  refine ⟨rfl, ⟨file_type, found⟩, fun h records number pos => ?_⟩
  have middle := linked.trans first
  have sb := linked.sb
  have sb' := middle.sb
  have same := linked.entry ino
  have same' := middle.entry ino
  have stored := record (linked.mirrored h.mirrored) (by rw [sb]; exact records) (s.itable ino).inum (by rw [sb]; exact pos)
  rw [if_pos same.inum.symm, same.mode] at stored
  rw [record' (middle.mirrored h.mirrored) (by rw [sb']; exact records) (s.itable ino).inum (by rw [sb']; exact pos)]
  split
  case isFalse => exact stored
  case isTrue parent =>
    -- the parent is the inode itself
    rw [(middle.entry dir).inum] at parent
    obtain rfl := h.distinct.once ino dir number parent
    exact same'.mode

/-- **A new inode** has the type and the device it is made with. -/
theorem keeps_ext2NewInode (s : Fs) (name : List (BitVec 8)) (dir : InodeId) (mode dev : BitVec 32) :
    After (ext2NewInode name dir mode dev) s fun r t => t.sb = s.sb ∧ (s.Sane → t.Sane) ∧ ∀ node, r = some node →
      (∃ file_type, imode2dtype (mode.setWidth 16) = .ok file_type) ∧
      (s.Sane → s.sb.Records → t.record node ≠ 0 → t.irefs node ≠ 0 → t.Keeps node (mode.setWidth 16) dev) := by
  rw [ext2NewInode_eq]
  refine After.bind (sane_ext2AllocInode s) ?_
  rintro (_ | ino) t ⟨sb, sane, own⟩
  · exact After.pure ⟨sb, sane, (by intro node never; cases never)⟩
  have number := own ino rfl
  refine After.step (FsM.modify_run _) ?_
  have self : ((t.setInode ino fun x => x.asNew mode dev).itable ino) = (t.itable ino).asNew mode dev := Function.update_self ..
  have sane' : s.Sane → (t.setInode ino fun x => x.asNew mode dev).Sane := fun h => (sane h).setInode rfl
  refine After.bind (steady_newByType _ ino dir mode) ?_
  intro dots u typed
  split
  · exact After.pure ⟨typed.sb.trans sb, fun h => typed.sane (sane' h), (by intro node never; cases never)⟩
  refine (steady_linkNew u name ino dir).mono ?_
  rintro r v ⟨linked, made⟩
  have total := typed.trans linked
  refine ⟨total.sb.trans sb, fun h => total.sane (sane' h), fun node eq => ?_⟩
  obtain ⟨rfl, file_type, stored⟩ := made node eq
  have entry := typed.entry node
  have entry' := total.entry node
  rw [self] at entry entry'
  rw [entry.mode] at file_type stored
  refine ⟨file_type, fun h records pos held => ?_⟩
  have inum : (u.itable node).inum = (t.itable node).inum := entry.inum
  have inum' : (v.itable node).inum = (t.itable node).inum := entry'.inum
  constructor
  · exact total.sane (sane' h)
  · rw [total.sb]
    exact sb.symm ▸ records
  · exact pos
  · rw [inum']
    exact number
  · exact held
  · exact entry'.mode
  · exact entry'.major
  · have block : u.record node ≠ 0 := by
      have same : u.record node = v.record node := by
        unfold Fs.record
        rw [linked.sb, inum, inum']
      rw [same]
      exact pos
    have here := stored (typed.sane (sane' h)) (by rw [typed.sb]; exact sb.symm ▸ records) (by rw [inum]; exact number) block
    rw [inum'.trans inum.symm]
    exact here

theorem keeps_ext2Mknod (s : Fs) (cwd : InodeId) (path : List Chr) (mode dev : BitVec 32) :
    After (ext2Mknod cwd path mode dev) s fun r t => t.sb = s.sb ∧ (s.Sane → t.Sane) ∧ ∀ node, r = some node →
      (∃ file_type, imode2dtype (mode.setWidth 16) = .ok file_type) ∧
      (s.Sane → s.sb.Records → t.record node ≠ 0 → t.irefs node ≠ 0 → t.Keeps node (mode.setWidth 16) dev) := by
  unfold ext2Mknod
  refine After.bind (sane_rule.ext2Path2inodeParent s cwd path) ?_
  rintro ⟨_ | pdir, namebuf⟩ t ⟨sb, sane⟩
  · exact After.pure ⟨sb, sane, (by intro node never; cases never)⟩
  refine (keeps_ext2NewInode t _ pdir mode dev).mono ?_
  rintro r u ⟨sb', sane', made⟩
  refine ⟨sb'.trans sb, fun h => sane' (sane h), fun node eq => ?_⟩
  obtain ⟨file_type, keeps⟩ := made node eq
  exact ⟨file_type, fun h records => keeps (sane h) (sb.symm ▸ records)⟩

end Made

end Aarch64Os.Kernel
