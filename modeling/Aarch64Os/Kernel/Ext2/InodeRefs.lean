import Mathlib
import Aarch64Os.Base.Debt
import Aarch64Os.Kernel.Ext2.Balance
import Aarch64Os.Kernel.Ext2.Effects

/-!
# References that lookups take (`kernel/ext2.c`, `kernel/fs.c`)

`find_inode` counts a reference for each inode a lookup comes through, and for a new inode.
`release_inode` is never called, so no function of the file system gives one back.
-/

namespace Aarch64Os.Kernel
set_option autoImplicit false
open Base

/-- The `ref` counts of the inode table. -/
def Fs.irefs (s : Fs) (i : InodeId) : BitVec 32 := (s.itable i).ref

/-- One reference for each entry of a list. -/
def loadCount (loads : List InodeId) : InodeId → BitVec 32 := (loads.map fun i => Pi.single i 1).sum

theorem loadCount_append (loads loads' : List InodeId) : loadCount (loads ++ loads') = loadCount loads + loadCount loads' := by
  simp [loadCount]

theorem loadCount_apply (loads : List InodeId) (i : InodeId) : loadCount loads i = BitVec.ofNat 32 (loads.count i) := by
  induction loads with
  | nil => rfl
  | cons j loads ih =>
    rw [← List.singleton_append, loadCount_append, Pi.add_apply, ih, List.count_append, BitVec.ofNat_add]
    congr 1
    rcases eq_or_ne i j with rfl | ne
    · simp [loadCount]
    · simp [loadCount, ne, ne.symm]

/-- The entries that a lookup takes references to, in order. `last` is its test for the end of
the path. -/
def walkLoads (last : List Chr → NameBuf → Prop) [∀ path name, Decidable (last path name)] :
    Nat → Option InodeId → List Chr → NameBuf → Fs → List InodeId
  | 0, _, _, _, _ => []
  | left + 1, pi, path, name, s =>
    match skippath path name, pi with
    | .ok (name, some path), some p =>
      if last path name ∨ S_ISDIR (s.itable p).mode = false then []
      else
        match ext2SearchDir p name.mem s with
        | .error _ => []
        | .ok (inum, t) =>
          if inum < 0 then []
          else
            match ext2GetInode (BitVec.ofInt 32 inum) t with
            | .error _ => []
            | .ok (next, u) => next.toList ++ walkLoads last left next path NameBuf.zero u
    | _, _ => []

/-- The same for the whole lookup, which takes one to the root first. -/
def pathLoads (last : List Chr → NameBuf → Prop) [∀ path name, Decidable (last path name)] (cwd : InodeId) (path : List Chr)
    (s : Fs) : List InodeId :=
  match pathStart cwd path s with
  | .error _ => []
  | .ok (ino, t) =>
    (if path.head? = some SLASH then ino.toList else []) ++ walkLoads last (path.length + 1) ino path NameBuf.zero t

section Takes
variable {s t : Fs} {α : Type}

theorem irefs_of_itable (same : t.itable = s.itable) : t.irefs = s.irefs := by
  unfold Fs.irefs
  rw [same]

/-- A function that leaves the inode table alone takes no reference to it. -/
theorem irefs_kept {f : FsM α} (same : After f s fun _ t => t.itable = s.itable) : Takes Fs.irefs f s fun _ => 0 := by
  intro a t run
  rw [irefs_of_itable (same a t run)]
  exact (add_zero _).symm

theorem irefs_quiet {f : FsM α} {post : α → Fs → Prop} (quiet : After f s post) (still : ∀ a t, post a t → s.Quiet t) :
    Takes Fs.irefs f s fun _ => 0 :=
  irefs_kept (quiet.mono fun a t here => (still a t here).itable)

/-- A change of one entry that leaves its count alone. -/
theorem irefs_setInode (s : Fs) (ino : InodeId) {f : Inode → Inode} (same : (f (s.itable ino)).ref = (s.itable ino).ref) :
    (s.setInode ino f).irefs = s.irefs := by
  funext i
  show (Function.update s.itable ino (f (s.itable ino)) i).ref = (s.itable i).ref
  rcases eq_or_ne i ino with rfl | ne
  · rw [Function.update_self, same]
  · rw [Function.update_of_ne ne]

/-- One more reference to an entry. -/
theorem irefs_add (s : Fs) (ino : InodeId) {f : Inode → Inode} (more : (f (s.itable ino)).ref = (s.itable ino).ref + 1) :
    (s.setInode ino f).irefs = s.irefs + Pi.single ino 1 := by
  funext i
  show (Function.update s.itable ino (f (s.itable ino)) i).ref = (s.itable i).ref + (Pi.single ino 1 : InodeId → BitVec 32) i
  rcases eq_or_ne i ino with rfl | ne
  · rw [Function.update_self, Pi.single_eq_same, more]
  · rw [Function.update_of_ne ne, Pi.single_eq_of_ne ne]
    exact (add_zero _).symm

/-- `find_inode` takes a reference to the entry it returns. -/
theorem irefs_findInode (s : Fs) (inum : BitVec 32) : Takes Fs.irefs (findInode inum) s fun r => loadCount r.toList := by
  intro r t run
  unfold findInode at run
  split at run
  case h_1 i slot =>
    cases run
    rw [irefs_add s i rfl]
    simp [loadCount]
  case h_2 i slot =>
    cases run
    rw [irefs_add s i rfl]
    simp [loadCount]
  case h_3 =>
    cases run
    simp [loadCount]

/-- `ext2_get_inode` takes the same reference. -/
theorem irefs_ext2GetInode (s : Fs) (inum : BitVec 32) : Takes Fs.irefs (ext2GetInode inum) s fun r => loadCount r.toList := by
  unfold ext2GetInode
  refine After.bind (irefs_findInode s inum) fun found t taken => ?_
  -- filling the entry takes no further reference
  refine After.bind (quiet_ext2RawInode t inum) ?_
  rintro ⟨b, off⟩ u ⟨quiet, -⟩
  have kept := irefs_of_itable quiet.itable
  dsimp only
  cases found with
  | none => exact After.pure (kept.trans taken)
  | some i =>
    refine After.step (bufData_runs u b) ?_
    split
    case isFalse => exact After.throw _
    case isTrue =>
      refine After.step (FsM.modify_run _) ?_
      refine After.bind (quiet_bioFree _ b) ?_
      intro _ v quiet'
      apply After.pure
      show v.irefs = _
      rw [irefs_of_itable quiet'.itable, irefs_setInode u i rfl, kept, taken]

end Takes

section Walks
variable {last : List Chr → NameBuf → Prop} [∀ path name, Decidable (last path name)] {R : List InodeId → Fs → Fs → Prop}

/-- What a lookup does, by the entries it loads: searches load none, and `ext2_get_inode` loads
the one it returns. -/
structure LoadRule (R : List InodeId → Fs → Fs → Prop) : Prop where
  refl : ∀ s, R [] s s
  trans : ∀ {loads loads' s t u}, R loads s t → R loads' t u → R (loads ++ loads') s u
  search : ∀ s dir name, After (ext2SearchDir dir name) s fun _ t => R [] s t
  load : ∀ s inum, After (ext2GetInode inum) s fun r t => R r.toList s t

namespace LoadRule

/-- One round of either walk. `done` is what it returns, and `go` the next round. -/
theorem round (rule : LoadRule R) {α : Type} {done : Option InodeId → NameBuf → FsM α} {go : Option InodeId → List Chr → FsM α}
    {left : Nat} (dones : ∀ r name t, After (done r name) t fun _ u => u = t)
    (goes : ∀ next path t, After (go next path) t fun _ u => R (walkLoads last left next path NameBuf.zero t) t u)
    (s : Fs) (pi : Option InodeId) (path : List Chr) (name : NameBuf) :
    After (do
      let (name, path) ← liftM (skippath path name)
      match path, pi with
      | none, _ => done none name
      | some path, pi =>
        if last path name then done pi name
        else
          match pi with
          | none => throw .undefined
          | some pi => do
            let s ← get
            if ! S_ISDIR (s.itable pi).mode then done (some pi) name
            else
              let inum ← ext2SearchDir pi name.mem
              if inum < 0 then done none name
              else
                let next ← ext2GetInode (BitVec.ofInt 32 inum)
                go next path) s fun _ t => R (walkLoads last (left + 1) pi path name s) s t := by
  have ended : ∀ r name, After (done r name) s fun _ t => R [] s t := fun r name =>
    (dones r name s).mono fun _ t same => same ▸ rule.refl s
  unfold walkLoads
  cases skip : skippath path name with
  | error e => exact After.bind (after_lift s _) fun a t found => nomatch found.1
  | ok r =>
  obtain ⟨name', path'⟩ := r
  refine After.step (FsM.lift_ok rfl) ?_
  cases path' with
  | none => exact ended none name'
  | some path' =>
  cases pi with
  | none =>
    dsimp only
    split
    · exact ended none name'
    · exact After.throw _
  | some p =>
  dsimp only
  cases ending : decide (last path' name') with
  | true =>
    have ending := of_decide_eq_true ending
    rw [if_pos ending, if_pos (.inl ending)]
    exact ended (some p) name'
  | false =>
  have more := of_decide_eq_false ending
  rw [if_neg more]
  refine After.step FsM.get_run ?_
  cases dir : S_ISDIR (s.itable p).mode with
  | false =>
    rw [if_pos (Or.inr rfl)]
    exact ended (some p) name'
  | true =>
  have here : ¬ (last path' name' ∨ true = false) := by simp [more]
  rw [if_neg (show ¬ (!true) = true by decide), if_neg here]
  refine After.bind (fun _ _ run => run) ?_
  intro inum t search
  have searched := rule.search s p _ inum t search
  rw [search]
  dsimp only
  split
  case isTrue neg => exact (dones none name' t).mono fun _ u same => same ▸ searched
  case isFalse nonneg =>
    refine After.bind (fun _ _ run => run) ?_
    intro next u found
    have loaded := rule.load t _ next u found
    rw [found]
    exact (goes next path' u).mono fun _ v rest => rule.trans (rule.trans searched loaded) rest

theorem traverseInode (rule : LoadRule R) (left : Nat) : ∀ (s : Fs) (pi : Option InodeId) (path : List Chr) (name : NameBuf),
    After (traverseInode left pi path name) s fun _ t => R (walkLoads AtEnd left pi path name s) s t := by
  induction left with
  | zero => exact fun s pi path name => After.throw _
  | succ left ih => exact rule.round (fun r _ _ => After.pure (a := r) rfl) fun next path t => ih t next path NameBuf.zero

theorem traverseInodeParent (rule : LoadRule R) (left : Nat) : ∀ (s : Fs) (pi : Option InodeId) (path : List Chr) (name : NameBuf),
    After (traverseInodeParent left pi path name) s fun _ t => R (walkLoads AtLast left pi path name s) s t := by
  induction left with
  | zero => exact fun s pi path name => After.throw _
  | succ left ih => exact rule.round (fun r name _ => After.pure (a := (r, name)) rfl) fun next path t => ih t next path NameBuf.zero

/-- A walk from the start of a path. -/
theorem path (rule : LoadRule R) {α : Type} {walk : Option InodeId → FsM α} {cwd : InodeId} {path : List Chr}
    (walks : ∀ ino t, After (walk ino) t fun _ u => R (walkLoads last (path.length + 1) ino path NameBuf.zero t) t u) (s : Fs) :
    After (pathStart cwd path >>= walk) s fun _ t => R (pathLoads last cwd path s) s t := by
  refine After.bind (fun _ _ run => run) ?_
  intro ino t start
  unfold pathLoads
  rw [start]
  refine (walks ino t).mono fun _ u walked => rule.trans ?_ walked
  unfold pathStart at start
  split at start
  case isTrue root =>
    rw [if_pos root]
    exact rule.load s _ ino t start
  case isFalse relative =>
    cases start
    rw [if_neg relative]
    exact rule.refl s

theorem ext2Path2inode (rule : LoadRule R) (s : Fs) (cwd : InodeId) (path : List Chr) :
    After (ext2Path2inode cwd path) s fun _ t => R (pathLoads AtEnd cwd path s) s t :=
  rule.path (fun ino t => rule.traverseInode _ t ino path NameBuf.zero) s

theorem ext2Path2inodeParent (rule : LoadRule R) (s : Fs) (cwd : InodeId) (path : List Chr) :
    After (ext2Path2inodeParent cwd path) s fun _ t => R (pathLoads AtLast cwd path s) s t :=
  rule.path (fun ino t => rule.traverseInodeParent _ t ino path NameBuf.zero) s

end LoadRule

/-- Each load takes a reference. -/
theorem irefs_rule : LoadRule fun loads s t => t.irefs = s.irefs + loadCount loads where
  refl s := (add_zero _).symm
  trans first second := by rw [second, first, loadCount_append, add_assoc]
  search s dir name := irefs_kept ((quiet_ext2SearchDir s dir name).mono fun _ _ quiet => quiet.itable)
  load := irefs_ext2GetInode

theorem irefs_ext2Path2inode (s : Fs) (cwd : InodeId) (path : List Chr) :
    Takes Fs.irefs (ext2Path2inode cwd path) s fun _ => loadCount (pathLoads AtEnd cwd path s) := irefs_rule.ext2Path2inode s cwd path

theorem irefs_ext2Path2inodeParent (s : Fs) (cwd : InodeId) (path : List Chr) :
    Takes Fs.irefs (ext2Path2inodeParent cwd path) s fun _ => loadCount (pathLoads AtLast cwd path s) :=
  irefs_rule.ext2Path2inodeParent s cwd path

/-- A walk from `NULL` finds nothing. -/
theorem traverseInode_none (left : Nat) (path : List Chr) (name : NameBuf) (s : Fs) :
    After (traverseInode left none path name) s fun r _ => r = none := by
  cases left with
  | zero => exact After.throw _
  | succ left =>
    unfold traverseInode
    refine After.bind (after_lift s _) ?_
    rintro ⟨name', _ | path'⟩ _ ⟨-, rfl⟩
    · exact After.pure rfl
    · dsimp only
      split
      · exact After.pure rfl
      · exact After.throw _

/-- A walk finds nothing, or the last inode it came to. -/
theorem traverseInode_last (left : Nat) : ∀ (s : Fs) (p : InodeId) (path : List Chr) (name : NameBuf),
    After (traverseInode left (some p) path name) s fun r _ =>
      r = none ∨ r = (p :: walkLoads AtEnd left (some p) path name s).getLast? := by
  induction left with
  | zero => exact fun s p path name => After.throw _
  | succ left ih =>
    intro s p path name
    unfold traverseInode walkLoads
    refine After.bind (after_lift s _) ?_
    rintro ⟨name', _ | path'⟩ _ ⟨skip, rfl⟩
    · exact After.pure (.inl rfl)
    rw [skip]
    dsimp only
    split
    case isTrue ending =>
      rw [if_pos (show AtEnd path' name' ∨ _ from .inl ending)]
      exact After.pure (.inr rfl)
    case isFalse more =>
    refine After.step FsM.get_run ?_
    split
    case isTrue file =>
      rw [if_pos (Or.inr (by simpa using file))]
      exact After.pure (.inr rfl)
    case isFalse dir =>
    rw [if_neg (show ¬ (AtEnd path' name' ∨ _) from not_or.2 ⟨more, by simpa using dir⟩)]
    refine After.bind (fun _ _ run => run) ?_
    intro inum t search
    rw [search]
    dsimp only
    split
    case isTrue => exact After.pure (.inl rfl)
    case isFalse =>
    refine After.bind (fun _ _ run => run) ?_
    intro next u found
    rw [found]
    cases next with
    | none => exact (traverseInode_none left path' _ u).mono fun r _ none => .inl none
    | some i => exact (ih u i path' _).mono fun r _ last => last.imp_right fun last => by simpa using last

/-- The same for a whole lookup. -/
theorem path2inode_last (s : Fs) (cwd : InodeId) (path : List Chr) : After (ext2Path2inode cwd path) s fun r _ =>
    r = none ∨ r = (cwd :: pathLoads AtEnd cwd path s).getLast? := by
  unfold ext2Path2inode pathLoads
  refine After.bind (fun _ _ run => run) ?_
  intro ino t start
  rw [start]
  dsimp only
  cases ino with
  | none => exact (traverseInode_none _ path _ t).mono fun r _ none => .inl none
  | some i =>
    refine (traverseInode_last _ t i path _).mono fun r _ last => last.imp_right fun last => ?_
    unfold pathStart at start
    split at start
    case isTrue root =>
      rw [if_pos root]
      simpa using last
    case isFalse relative =>
      cases start
      rw [if_neg relative]
      exact last

/-- The lookup of `/` takes one reference, to what it finds. -/
theorem pathLoads_root {s t : Fs} {cwd i : InodeId} (run : ext2Path2inode cwd [SLASH] s = .ok (some i, t)) :
    pathLoads AtEnd cwd [SLASH] s = [i] := by
  have skip : skippath [SLASH] NameBuf.zero = .ok (NameBuf.zero.put [], some []) := skippath_end (by simp) _
  have ending : AtEnd [] (NameBuf.zero.put []) := ⟨rfl, by simp [NameBuf.put, NameBuf.putAt]⟩
  unfold ext2Path2inode at run
  obtain ⟨ino, u, start, walk⟩ := run_bind.1 run
  have root : ino = some i := by
    rw [show [SLASH].length + 1 = 1 + 1 from rfl, traverseInode, FsM.bind_of_ok (FsM.lift_ok skip)] at walk
    dsimp only at walk
    rw [if_pos (show _ ∧ _ from ending)] at walk
    cases walk
    rfl
  subst root
  unfold pathLoads
  rw [start]
  dsimp only
  unfold walkLoads
  rw [skip]
  simp [ending]

end Walks

section News

/-- Searching a bitmap and setting a bit take no reference. -/
theorem irefs_allocBit (s : Fs) (bno : Superblock → BitVec 32) (first : Int) :
    Takes Fs.irefs (allocBit bno (findFree first) (writeBit first)) s fun _ => 0 := by
  apply irefs_kept
  unfold allocBit
  refine After.step FsM.get_run ?_
  refine After.bind (quiet_bioRead s _) ?_
  rintro b t ⟨quiet, -⟩
  refine After.step (bufData_runs t b) ?_
  refine After.bind (after_lift t _) ?_
  rintro num _ ⟨-, rfl⟩
  split
  · exact After.pure quiet.itable
  · refine After.bind (writes_writeBit _ first b num true) ?_
    rintro _ u ⟨-, same⟩
    refine After.bind (quiet_bioFree u b) ?_
    intro _ v quiet'
    exact After.pure ((quiet'.itable.trans same).trans quiet.itable)

/-- A new inode takes the one reference of its entry. -/
theorem irefs_ext2AllocInode (s : Fs) : Takes Fs.irefs ext2AllocInode s fun r => loadCount r.toList := by
  unfold ext2AllocInode
  apply Takes.bind_free (irefs_allocBit s _ 1)
  intro inum t _
  split
  · exact After.pure (add_zero _).symm
  · exact irefs_findInode t _

theorem irefs_ext2AppendInodeBlock (s : Fs) (ino : InodeId) (bn : Int) : Takes Fs.irefs (ext2AppendInodeBlock ino bn) s fun _ => 0 := by
  refine (writes_append s ino bn).mono fun r t appended => ?_
  split at appended
  · rw [appended]
    exact (add_zero _).symm
  · rw [irefs_of_itable appended.2, Fs.append, irefs_setInode s ino rfl]
    exact (add_zero _).symm

theorem irefs_ext2Dirlink (s : Fs) (pdir : InodeId) (de : NewDirent) : Takes Fs.irefs (ext2Dirlink pdir de) s fun _ => 0 := by
  unfold ext2Dirlink
  apply Takes.bind_free (irefs_kept ((quiet_ext2SearchDir s pdir _).mono fun _ _ quiet => quiet.itable))
  intro found t _
  split
  · exact Takes.pure (-1)
  apply Takes.step FsM.get_run rfl
  apply Takes.bind_free (irefs_kept ((writes_linkBlocks pdir de _ t 0).mono fun _ _ linked => linked.2.2.1))
  rintro (_ | r) u _
  · apply Takes.step FsM.get_run rfl
    split
    · apply Takes.bind_free (irefs_allocBit u _ 0)
      intro bn v _
      apply Takes.bind_free (irefs_ext2AppendInodeBlock v pdir bn)
      intro _ w _
      apply Takes.bind_free (irefs_kept ((quiet_bioRead w _).mono fun _ _ read => read.1.itable))
      intro b x _
      apply Takes.step (bufData_runs x b) rfl
      exact irefs_kept ((writes_writeBlock x b _).mono fun _ _ written => written.2.2)
    · exact Takes.pure (-1)
  · exact Takes.pure r

theorem irefs_linkDots (s : Fs) (ino dir : InodeId) : Takes Fs.irefs (linkDots ino dir) s fun _ => 0 := by
  unfold linkDots
  refine Takes.step (FsM.modify_run _) (irefs_setInode s dir rfl) ?_
  apply Takes.step FsM.get_run rfl
  apply Takes.bind_free (irefs_ext2Dirlink _ ino _)
  intro r t _
  split
  · exact Takes.pure false
  apply Takes.step FsM.get_run rfl
  apply Takes.bind_free (irefs_ext2Dirlink _ ino _)
  intro r' u _
  split
  · exact Takes.pure false
  · refine Takes.step (FsM.modify_run _) (irefs_setInode u ino rfl) ?_
    exact Takes.pure true

theorem irefs_newByType (s : Fs) (ino dir : InodeId) (mode : BitVec 32) : Takes Fs.irefs (newByType ino dir mode) s fun _ => 0 := by
  unfold newByType
  split
  · exact irefs_linkDots s ino dir
  · refine Takes.step (FsM.modify_run _) ?_ (Takes.pure true)
    split
    · exact irefs_setInode s ino rfl
    · rfl

theorem irefs_linkNew (s : Fs) (name : List (BitVec 8)) (ino dir : InodeId) : Takes Fs.irefs (linkNew name ino dir) s fun _ => 0 := by
  have sync : ∀ t i, Takes Fs.irefs (inodeSync i) t fun _ => 0 := fun t i =>
    irefs_kept ((writes_inodeSync t i).mono fun _ _ written => written.2)
  unfold linkNew
  apply Takes.step FsM.get_run rfl
  apply Takes.bind_free (irefs_kept ((after_lift s _).mono fun _ _ found => by rw [found.2]))
  intro file_type t _
  apply Takes.bind_free (irefs_ext2Dirlink t dir _)
  intro r u _
  split
  · exact Takes.pure none
  · apply Takes.bind_free (sync u ino)
    intro _ v _
    apply Takes.bind_free (sync v dir)
    exact fun _ w _ => Takes.pure (some ino)

/-- The entry that `ext2_new_inode` takes a reference to, also when it fails behind that. -/
def newLoads (s : Fs) : List InodeId :=
  match ext2AllocInode s with
  | .error _ => []
  | .ok (ino, _) => ino.toList

theorem irefs_ext2NewInode (s : Fs) (name : List (BitVec 8)) (dir : InodeId) (mode dev : BitVec 32) :
    Takes Fs.irefs (ext2NewInode name dir mode dev) s fun _ => loadCount (newLoads s) := by
  rw [ext2NewInode_eq]
  refine After.bind (fun _ _ run => run) ?_
  intro ino t alloc
  unfold newLoads
  rw [alloc]
  dsimp only
  rw [← irefs_ext2AllocInode s ino t alloc]
  have rest : ∀ {f : FsM (Option InodeId)}, Takes Fs.irefs f t (fun _ => 0) → After f t fun _ u => u.irefs = t.irefs := by
    intro f takes a u run
    rw [takes a u run]
    exact add_zero _
  apply rest
  cases ino with
  | none => exact Takes.pure none
  | some i =>
    refine Takes.step (FsM.modify_run _) (irefs_setInode t i rfl) ?_
    apply Takes.bind_free (irefs_newByType _ i dir mode)
    intro dots u _
    split
    · exact Takes.pure none
    · exact irefs_linkNew u name i dir

/-- The entries that `ext2_mknod` takes references to. -/
def mknodLoads (cwd : InodeId) (path : List Chr) (s : Fs) : List InodeId :=
  pathLoads AtLast cwd path s ++
    match ext2Path2inodeParent cwd path s with
    | .ok ((some _, _), t) => newLoads t
    | _ => []

theorem irefs_ext2Mknod (s : Fs) (cwd : InodeId) (path : List Chr) (mode dev : BitVec 32) :
    Takes Fs.irefs (ext2Mknod cwd path mode dev) s fun _ => loadCount (mknodLoads cwd path s) := by
  unfold ext2Mknod mknodLoads
  refine After.bind (fun _ _ run => run) ?_
  rintro ⟨pdir, namebuf⟩ t lookup
  have walked := irefs_ext2Path2inodeParent s cwd path _ t lookup
  dsimp only at walked
  rw [lookup]
  dsimp only
  rw [loadCount_append, ← add_assoc, ← walked]
  cases pdir with
  | none => exact After.pure (add_zero _).symm
  | some pdir => exact irefs_ext2NewInode t _ pdir mode dev

end News

section Full

/-- The copying loop uses up what it copies. -/
theorem copyElem_shorter : ∀ (path : List Chr) (name : NameBuf) (len : Nat) {name' : NameBuf} {len' : Nat} {rest : List Chr},
    copyElem name len path = .ok (name', some (len', rest)) → path ≠ [] → rest.length < path.length := by
  intro path
  induction path with
  | nil => exact fun name len _ _ _ _ some => absurd rfl some
  | cons c path ih =>
    intro name len name' len' rest copied _
    rw [copyElem] at copied
    cases stored : name.store len c.val with
    | error e => rw [stored] at copied; cases copied
    | ok stored' =>
      rw [stored] at copied
      simp only [bind, Except.bind] at copied
      split at copied
      · cases copied
        exact Nat.lt_succ_self _
      split at copied
      · cases copied
      · cases path with
        | nil =>
          have store : (stored'.store (len + 1) 0).map (fun name => (name, some (len + 1, ([] : List Chr)))) =
            .ok (name', some (len', rest)) := copied
          cases last : stored'.store (len + 1) 0 with
          | error e => rw [last] at store; cases store
          | ok _ =>
            rw [last] at store
            cases store
            exact Nat.zero_lt_one
        | cons d path => exact (ih stored' (len + 1) copied (List.cons_ne_nil d path)).trans (Nat.lt_succ_self _)

/-- A round of a lookup that is not the last uses up a part of the path. -/
theorem skippath_shorter {path rest : List Chr} {name name' : NameBuf} (skip : skippath path name = .ok (name', some rest))
    (more : ¬ AtEnd rest name') : rest.length < path.length := by
  cases left : path.dropWhile (· = SLASH) with
  | nil =>
    have ending := skippath_end left name
    rw [skip] at ending
    cases ending
    exact absurd ⟨rfl, by simp [NameBuf.put, NameBuf.putAt]⟩ more
  | cons c path' =>
    have within : (c :: path').length ≤ path.length := left ▸ (List.dropWhile_suffix _).length_le
    rw [skippath, left] at skip
    cases copied : copyElem name 0 (c :: path') with
    | error e => rw [copied] at skip; cases skip
    | ok r =>
      obtain ⟨name₁, _ | ⟨len, rest'⟩⟩ := r
      · rw [copied] at skip
        cases skip
      · have shorter := copyElem_shorter _ _ _ copied (List.cons_ne_nil c path')
        rw [copied] at skip
        simp only [bind, Except.bind] at skip
        split at skip
        · cases last : name₁.store len 0 with
          | error e => rw [last] at skip; cases skip
          | ok _ =>
            rw [last] at skip
            cases skip
            omega
        · cases skip
          omega

/-- What is left of the path when `ext2_get_inode` finds no place for an inode on it. -/
def walkOut : Nat → InodeId → List Chr → NameBuf → Fs → Option (List Chr)
  | 0, _, _, _, _ => none
  | left + 1, p, path, name, s =>
    match skippath path name with
    | .ok (name, some path) =>
      if AtEnd path name ∨ S_ISDIR (s.itable p).mode = false then none
      else
        match ext2SearchDir p name.mem s with
        | .error _ => none
        | .ok (inum, t) =>
          if inum < 0 then none
          else
            match ext2GetInode (BitVec.ofInt 32 inum) t with
            | .error _ => none
            | .ok (none, _) => some path
            | .ok (some i, u) => walkOut left i path NameBuf.zero u
    | _ => none

/-- The same for `ext2_path2inode`. -/
def pathOut (cwd : InodeId) (path : List Chr) (s : Fs) : Option (List Chr) :=
  match pathStart cwd path s with
  | .error _ => none
  | .ok (none, _) => some path
  | .ok (some i, t) => walkOut (path.length + 1) i path NameBuf.zero t

/-- A traversal from `NULL` returns it for what is left of the path: nothing, or a component that
`skippath` rejects. -/
def NullReturned (rest : List Chr) : Prop :=
  match skippath rest NameBuf.zero with
  | .error _ => False
  | .ok (_, none) => True
  | .ok (name, some path) => AtEnd path name

theorem traverseInode_of_null (left : Nat) (rest : List Chr) (s : Fs) :
    (∃ t, traverseInode (left + 1) none rest NameBuf.zero s = .ok (none, t)) ↔ NullReturned rest := by
  unfold traverseInode NullReturned
  cases skip : skippath rest NameBuf.zero with
  | error e =>
    rw [FsM.bind_run, FsM.lift_error rfl]
    constructor
    · rintro ⟨t, never⟩
      cases never
    · exact False.elim
  | ok r =>
    rw [FsM.bind_of_ok (FsM.lift_ok rfl)]
    obtain ⟨name, _ | path⟩ := r
    · exact ⟨fun _ => trivial, fun _ => ⟨s, rfl⟩⟩
    · dsimp only
      split
      case isTrue ending => exact ⟨fun _ => ending, fun _ => ⟨s, rfl⟩⟩
      case isFalse more =>
        constructor
        · rintro ⟨t, never⟩
          cases never
        · exact fun ending => absurd ending more

/-- A traversal that finds no place for an inode returns `NULL` exactly when it then is at the end
of the path, or rejects the next component. -/
theorem traverseInode_out (left : Nat) : ∀ {s : Fs} {p : InodeId} {path rest : List Chr},
    path.length < left → walkOut left p path NameBuf.zero s = some rest →
      ((∃ t, traverseInode left (some p) path NameBuf.zero s = .ok (none, t)) ↔ NullReturned rest) := by
  induction left with
  | zero => exact fun short => absurd short (Nat.not_lt_zero _)
  | succ left ih =>
    intro s p path rest short out
    unfold walkOut at out
    unfold traverseInode
    split at out
    case h_2 => cases out
    case h_1 name path' skip =>
    rw [FsM.bind_of_ok (FsM.lift_ok skip)]
    dsimp only
    split at out
    case isTrue => cases out
    case isFalse goes =>
    obtain ⟨more, dir⟩ := not_or.1 goes
    have shorter := skippath_shorter skip more
    change ¬ (path' = [] ∧ name 0 = 0) at more
    rw [if_neg more, FsM.bind_of_ok FsM.get_run, if_neg (by simpa using dir)]
    split at out
    case h_1 => cases out
    case h_2 inum t search =>
    rw [FsM.bind_of_ok search]
    split at out
    case isTrue => cases out
    case isFalse nonneg =>
    rw [if_neg nonneg]
    split at out
    case h_1 => cases out
    case h_2 u load =>
      cases out
      rw [FsM.bind_of_ok load]
      obtain ⟨left, rfl⟩ : ∃ n, left = n + 1 := ⟨left - 1, by omega⟩
      exact traverseInode_of_null left rest u
    case h_3 i u load =>
      rw [FsM.bind_of_ok load]
      exact ih (by omega) out

/-- **A lookup that runs out of entries** returns `NULL` exactly when the inode without one was
the last of the path. -/
theorem path2inode_out {s : Fs} {cwd : InodeId} {path rest : List Chr} (out : pathOut cwd path s = some rest) :
    (∃ t, ext2Path2inode cwd path s = .ok (none, t)) ↔ NullReturned rest := by
  unfold pathOut at out
  unfold ext2Path2inode
  split at out
  case h_1 => cases out
  case h_2 u start =>
    cases out
    rw [FsM.bind_of_ok start]
    exact traverseInode_of_null path.length path u
  case h_3 i u start =>
    rw [FsM.bind_of_ok start]
    exact traverseInode_out _ (Nat.lt_succ_self _) out

end Full

end Aarch64Os.Kernel
