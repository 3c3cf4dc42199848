import Mathlib
import Aarch64Os.Kernel.Ext2.Path

/-!
# What a path resolves to

The entries on disk make a graph, and the reference rule resolves the components of a path in
it. `ext2_path2inode` follows the rule until it comes to an inode that is not a directory: it
returns that inode, whatever is left of the path.
-/

namespace Aarch64Os.Kernel
set_option autoImplicit false
open Base

/-- The directory graph on disk. -/
def Fs.graph (s : Fs) : PathGraph (BitVec 32) (List (BitVec 8)) where
  isDir i := S_ISDIR (s.inodeOn i).mode
  entry i c := ((s.entries (s.inodeOn i)).find? fun d => d.name = c).map Dirent.inode

/-- The components of a path. -/
def components (path : List Chr) : List (List (BitVec 8)) := (words SLASH path).map bytesOf

/-- A mounted volume between two calls, with a set of inodes that is closed under lookup and
whose directories are well formed. -/
structure Fs.WellFormed (s : Fs) (nodes : Set (BitVec 32)) : Prop where
  coherent : Coherent s
  spare : s.Spare
  records : s.sb.Records
  root : EXT2_ROOT_INO ∈ nodes
  dirs : ∀ i ∈ nodes, s.graph.isDir i = true → s.IsDirectory (s.inodeOn i)
  closed : ∀ i ∈ nodes, ∀ c j, s.graph.entry i c = some j → j ∈ nodes

/-- Loading inodes one after the other: the entry of the last, and the state, if each finds a
place in the table. -/
def Fs.loadAll (s : Fs) (id : InodeId) : List (BitVec 32) → Option (InodeId × Fs)
  | [] => some (id, s)
  | i :: is => (s.load i).bind fun p => p.2.loadAll p.1 is

/-- The inode number a path starts at. -/
def Fs.start (s : Fs) (cwd : InodeId) (path : List Chr) : BitVec 32 :=
  if path.head? = some SLASH then EXT2_ROOT_INO else (s.itable cwd).inum

/-- The inodes that are loaded on the way. -/
def Fs.loads (s : Fs) (cwd : InodeId) (path : List Chr) : List (BitVec 32) :=
  (if path.head? = some SLASH then [EXT2_ROOT_INO] else []) ++ s.graph.visits (s.start cwd path) (components path)

/-- A run returns the inode that the rule gives, and `NULL` when it gives none. -/
def Gives (run : Except Fault (Option InodeId × Fs)) : Option (BitVec 32) → Prop
  | some i => ∃ id t, run = .ok (some id, t) ∧ t.Holds id i
  | none => ∃ t, run = .ok (none, t)

theorem components_nil {path : List Chr} (none : words SLASH path = []) : components path = [] := by
  rw [components, none]
  rfl

theorem components_cons {path w : List Chr} {rest : List Chr} (first : words SLASH path = w :: words SLASH rest) :
    components path = bytesOf w :: components rest := by
  rw [components, first]
  rfl

/-- The graph is what is on disk. -/
theorem Fs.graph_congr {s t : Fs} (disk : t.disk = s.disk) (sb : t.sb = s.sb) : t.graph = s.graph := by
  have inode : t.inodeOn = s.inodeOn := by
    funext i
    simp only [Fs.inodeOn, disk, sb]
  have entries : t.blockEntries = s.blockEntries := by
    funext x k
    simp only [Fs.blockEntries, Fs.fileBlock, disk]
  simp only [Fs.graph, Fs.entries, inode, entries]

section Load
variable {s t : Fs} {nodes : Set (BitVec 32)} {i j : BitVec 32} {id id' : InodeId}

theorem Fs.load_graph (loaded : s.load j = some (id, t)) : t.graph = s.graph := by
  obtain ⟨disk, sb, -⟩ := Fs.load_frame loaded
  exact Fs.graph_congr disk sb

/-- Loading an inode leaves the volume well formed. -/
theorem Fs.WellFormed.load (wf : s.WellFormed nodes) (loaded : s.load j = some (id, t)) : t.WellFormed nodes := by
  obtain ⟨p, -, eq⟩ := Option.map_eq_some_iff.1 loaded
  obtain ⟨rfl, rfl⟩ := Prod.mk.inj eq
  exact ⟨wf.coherent.setInode _ _, wf.spare.setInode _ _, wf.records, wf.root, wf.dirs, wf.closed⟩

/-- Only the block count and the block map matter for the entries. -/
theorem Fs.Holds.entries (h : s.Holds id i) : s.entries (s.itable id) = s.entries (s.inodeOn i) := by
  have entries : s.blockEntries (s.itable id) = s.blockEntries (s.inodeOn i) := by
    funext k
    simp only [Fs.blockEntries, Fs.fileBlock, h.block]
  simp only [Fs.entries, Inode.nblock, entries, h.blocks]

theorem Fs.Holds.isDirectory (h : s.Holds id i) (wf : s.IsDirectory (s.inodeOn i)) : s.IsDirectory (s.itable id) := by
  simpa only [Fs.IsDirectory, Fs.fileBlock, Inode.nblock, h.blocks, h.block] using wf

theorem Fs.Holds.isDir (h : s.Holds id i) : S_ISDIR (s.itable id).mode = s.graph.isDir i := by
  rw [h.mode]
  rfl

end Load

section Round
variable {s t : Fs} {nodes : Set (BitVec 32)} {i j : BitVec 32} {id id' : InodeId} {w : List Chr}
  {name : NameBuf} {α : Type} {stop : FsM α} {go : Option InodeId → FsM α}

/-- The search of a directory for a component. -/
theorem Fs.WellFormed.search (wf : s.WellFormed nodes) (mem : i ∈ nodes) (holds : s.Holds id i)
    (dir : s.graph.isDir i = true) (short : w.length < DIRENT_NAME_MAX) :
    ext2SearchDir id (name.put w).mem s = .ok (inumOf (s.entries (s.inodeOn i)) (bytesOf w), s) := by
  obtain ⟨tail, shape⟩ := name.put_mem short
  rw [shape, wf.coherent.ext2SearchDir_eq tail wf.spare wf.records.bsize (holds.isDirectory (wf.dirs i mem dir))
    (zero_not_mem_bytesOf w) (by simpa using short), holds.entries]

/-- Both traversals, from the search on: the name is missing. -/
theorem Fs.WellFormed.round_missing (wf : s.WellFormed nodes) (mem : i ∈ nodes) (holds : s.Holds id i)
    (dir : s.graph.isDir i = true) (short : w.length < DIRENT_NAME_MAX) (missing : s.graph.entry i (bytesOf w) = none) :
    (do
      let inum ← ext2SearchDir id (name.put w).mem
      if inum < 0 then stop
      else
        let next ← ext2GetInode (BitVec.ofInt 32 inum)
        go next) s = stop s := by
  have none : (s.entries (s.inodeOn i)).find? (fun d => d.name = bytesOf w) = none := Option.map_eq_none_iff.1 missing
  rw [FsM.bind_of_ok (wf.search mem holds dir short), inumOf, none, if_pos (by decide)]

/-- The name is there. -/
theorem Fs.WellFormed.round_entry (wf : s.WellFormed nodes) (mem : i ∈ nodes) (holds : s.Holds id i)
    (dir : s.graph.isDir i = true) (short : w.length < DIRENT_NAME_MAX) (entry : s.graph.entry i (bytesOf w) = some j) :
    (do
      let inum ← ext2SearchDir id (name.put w).mem
      if inum < 0 then stop
      else
        let next ← ext2GetInode (BitVec.ofInt 32 inum)
        go next) s = (ext2GetInode j >>= go) s := by
  obtain ⟨d, first, rfl⟩ := Option.map_eq_some_iff.1 entry
  rw [FsM.bind_of_ok (wf.search mem holds dir short), inumOf, first]
  simp only [Option.map_some, Option.getD_some]
  rw [if_neg (by omega)]
  simp [FsM.bind_run]

/-- The walk goes on in the entry the inode is loaded to. -/
theorem Fs.WellFormed.load_go (wf : s.WellFormed nodes) (loaded : s.load j = some (id', t)) :
    (ext2GetInode j >>= go) s = go (some id') t :=
  FsM.bind_of_ok (wf.coherent.ext2GetInode_load wf.spare wf.records loaded)

/-- Without a place it goes on from `NULL`. -/
theorem Fs.WellFormed.full_go (wf : s.WellFormed nodes) (full : s.load j = none) (go : Option InodeId → FsM α) :
    ∃ u, (ext2GetInode j >>= go) s = go none u := by
  obtain ⟨u, run⟩ := wf.coherent.ext2GetInode_full wf.spare wf.records full
  exact ⟨u, FsM.bind_of_ok run⟩

end Round

section Traverse
variable {s : Fs} {nodes : Set (BitVec 32)} {i : BitVec 32} {id : InodeId} {pi : Option InodeId} {path w rest : List Chr}
  {name : NameBuf} {left : Nat}

/-- `traverse_inode` at the end of the path. -/
theorem traverseInode_end (ending : path.dropWhile (· = SLASH) = []) : traverseInode (left + 1) pi path name s = .ok (pi, s) := by
  rw [traverseInode, FsM.bind_of_ok (FsM.lift_ok (skippath_end ending name))]
  cases pi <;> simp [NameBuf.put, NameBuf.putAt]

/-- `traverse_inode` at a component, from `NULL`. -/
theorem traverseInode_null (at_w : path.dropWhile (· = SLASH) = w ++ rest) (ne : w ≠ []) (free : SLASH ∉ w)
    (stop : rest = [] ∨ rest.head? = some SLASH) (short : w.length < DIRENT_NAME_MAX) :
    traverseInode (left + 1) none path name s = .error .undefined := by
  rw [traverseInode, FsM.bind_of_ok (FsM.lift_ok (skippath_word at_w free stop short name))]
  simp only [name.put_zero ne, and_false, if_false]
  rfl

/-- `traverse_inode` at a component. -/
theorem traverseInode_word (at_w : path.dropWhile (· = SLASH) = w ++ rest) (ne : w ≠ []) (free : SLASH ∉ w)
    (stop : rest = [] ∨ rest.head? = some SLASH) (short : w.length < DIRENT_NAME_MAX) :
    traverseInode (left + 1) (some id) path name s =
      if ! S_ISDIR (s.itable id).mode then .ok (some id, s)
      else (do
        let inum ← ext2SearchDir id (name.put w).mem
        if inum < 0 then pure none
        else
          let next ← ext2GetInode (BitVec.ofInt 32 inum)
          traverseInode left next rest.tail NameBuf.zero : FsM (Option InodeId)) s := by
  rw [traverseInode, FsM.bind_of_ok (FsM.lift_ok (skippath_word at_w free stop short name))]
  simp only [name.put_zero ne, and_false, if_false, FsM.bind_of_ok FsM.get_run]
  split <;> rfl

/-- From `NULL` the rule is not followed: at the end of the path `NULL` is returned. -/
theorem traverseInode_lost {g : PathGraph (BitVec 32) (List (BitVec 8))}
    (short : ∀ c ∈ components path, c.length < DIRENT_NAME_MAX) :
    ¬ Gives (traverseInode (left + 1) none path name s) (g.resolve i (components path)) := by
  rcases words_cases SLASH path with ⟨ending, none⟩ | ⟨w, rest, at_w, ne, free, stop, first⟩
  · rw [traverseInode_end ending, components_nil none]
    rintro ⟨id, t, run, -⟩
    cases run
  · rw [components_cons first] at short
    rw [traverseInode_null at_w ne free stop (by simpa using short (bytesOf w) List.mem_cons_self)]
    cases g.resolve i (components path) with
    | none => exact fun ⟨t, run⟩ => nomatch run
    | some j => exact fun ⟨id, t, run, _⟩ => nomatch run

/-- The rounds left suffice for what is left of the path. -/
theorem rest_length (at_w : path.dropWhile (· = SLASH) = w ++ rest) (ne : w ≠ []) (enough : path.length ≤ left + 1) :
    rest.tail.length ≤ left := by
  have dropped := (List.dropWhile_suffix (l := path) (· = SLASH)).length_le
  have pos := List.length_pos_of_ne_nil ne
  rw [at_w, List.length_append] at dropped
  rw [List.length_tail]
  omega

end Traverse

/-- **`traverse_inode` follows the rule** exactly when the path is clear and every inode on the
way finds a place in the table. -/
theorem traverseInode_gives {nodes : Set (BitVec 32)} (left : Nat) :
    ∀ {s : Fs} {i : BitVec 32} {id : InodeId} {path : List Chr} (name : NameBuf), s.WellFormed nodes → i ∈ nodes →
      s.Holds id i → path.length ≤ left → (∀ c ∈ components path, c.length < DIRENT_NAME_MAX) →
      (Gives (traverseInode (left + 1) (some id) path name s) (s.graph.resolve i (components path)) ↔
        s.graph.Clear i (components path) ∧ (s.loadAll id (s.graph.visits i (components path))).isSome) := by
  induction left with
  | zero =>
    intro s i id path name wf mem holds enough short
    obtain rfl : path = [] := List.eq_nil_of_length_eq_zero (by omega)
    rw [traverseInode_end rfl]
    exact ⟨fun _ => ⟨PathGraph.clear_nil, rfl⟩, fun _ => ⟨id, s, rfl, holds⟩⟩
  | succ left ih =>
    intro s i id path name wf mem holds enough short
    rcases words_cases SLASH path with ⟨ending, none⟩ | ⟨w, rest, at_w, ne, free, stop, first⟩
    · rw [traverseInode_end ending, components_nil none]
      exact ⟨fun _ => ⟨PathGraph.clear_nil, rfl⟩, fun _ => ⟨id, s, rfl, holds⟩⟩
    rw [components_cons first] at short ⊢
    have fits : w.length < DIRENT_NAME_MAX := by simpa using short (bytesOf w) List.mem_cons_self
    rw [traverseInode_word at_w ne free stop fits, holds.isDir]
    cases dir : s.graph.isDir i with
    | false =>
      -- the inode itself is returned, and the rule gives none
      rw [PathGraph.resolve_file dir]
      constructor
      · rintro ⟨t, run⟩
        cases run
      · rintro ⟨clear, -⟩
        rw [clear.dir] at dir
        cases dir
    | true =>
    cases entry : s.graph.entry i (bytesOf w) with
    | none =>
      rw [PathGraph.resolve_missing entry, PathGraph.visits_missing entry]
      refine ⟨fun _ => ⟨PathGraph.clear_cons dir ?_, rfl⟩, fun _ => ⟨s, wf.round_missing mem holds dir fits entry⟩⟩
      intro j leads
      rw [entry] at leads
      cases leads
    | some j =>
    rw [PathGraph.resolve_entry dir entry, PathGraph.visits_entry dir entry]
    simp only [Bool.not_true, Bool.false_eq_true, if_false]
    rw [wf.round_entry mem holds dir fits entry]
    have known := wf.closed i mem _ j entry
    have enough' := rest_length at_w ne enough
    have short' : ∀ c ∈ components rest.tail, c.length < DIRENT_NAME_MAX := fun c hc => short c (List.mem_cons_of_mem _ hc)
    cases loaded : s.load j with
    | none =>
      obtain ⟨u, run⟩ := wf.full_go loaded fun next => traverseInode (left + 1) next rest.tail NameBuf.zero
      rw [run]
      refine iff_of_false (traverseInode_lost short') fun ⟨_, found⟩ => ?_
      simp [Fs.loadAll, loaded] at found
    | some p =>
      obtain ⟨id', t⟩ := p
      rw [wf.load_go loaded]
      have same := Fs.load_graph loaded
      have step := ih NameBuf.zero (wf.load loaded) known (Fs.load_holds loaded) enough' short'
      rw [same] at step
      rw [step]
      have tail : (s.loadAll id (j :: s.graph.visits j (components rest.tail))) =
          t.loadAll id' (s.graph.visits j (components rest.tail)) := by simp [Fs.loadAll, loaded]
      rw [tail]
      refine and_congr_left fun _ => ⟨fun clear => PathGraph.clear_cons dir fun k leads => ?_, fun clear => clear.tail entry⟩
      rw [entry] at leads
      cases leads
      exact clear

/-- The small volume with a root directory in inode 2, which holds itself as `.` and a regular
file as `f`. -/
def treeVolume (bno : BitVec 32) : Block := fun i =>
  if bno = 4#32 then
    if (i : Nat) = 128 then 0xed#8 else if (i : Nat) = 129 then 0x41#8 else if (i : Nat) = 156 then 2#8
    else if (i : Nat) = 168 then 20#8 else if (i : Nat) = 256 then 0xa4#8 else if (i : Nat) = 257 then 0x81#8 else 0#8
  else if bno = 20#32 then
    if (i : Nat) = 0 then 2#8 else if (i : Nat) = 4 then 12#8 else if (i : Nat) = 6 then 1#8 else if (i : Nat) = 8 then 46#8
    else if (i : Nat) = 12 then 3#8 else if (i : Nat) = 16 then 0xf4#8 else if (i : Nat) = 17 then 3#8
    else if (i : Nat) = 18 then 1#8 else if (i : Nat) = 20 then 102#8 else 0#8
  else smallVolume 1 bno i

/-- That volume, mounted, with its root in the first entry of the inode table. -/
def treeFs : Fs :=
  let s := { Fs.boot treeVolume with sb := superblockOf (treeVolume 1#32) (treeVolume 2#32) }
  s.setInode 0 fun x => x.fillFrom 2#32 (treeVolume 4#32) 128

/-- `f`, `x` and `.`. -/
def F : Chr := ⟨102#8, by decide⟩
def X : Chr := ⟨120#8, by decide⟩
def DOT : Chr := ⟨46#8, by decide⟩

theorem treeFs_entries : treeFs.entries (treeFs.inodeOn 2#32) = [⟨2#32, [46#8]⟩, ⟨3#32, [102#8]⟩] ∧
    treeFs.entries (treeFs.inodeOn 3#32) = [] := by decide +kernel

theorem treeFs_directory : Block.Directory (treeVolume 20#32) [⟨2#32, [46#8]⟩, ⟨3#32, [102#8]⟩] := by
  constructor
  · decide +kernel
  all_goals decide

theorem treeFs_wellFormed : treeFs.WellFormed {2#32, 3#32} := by
  have count : (treeFs.inodeOn 2#32).nblock = 1 := by decide +kernel
  have block : treeFs.fileBlock (treeFs.inodeOn 2#32) 0 = some (treeVolume 20#32) := by
    have slot : (treeFs.inodeOn 2#32).block 0 = 20#32 := by decide +kernel
    simp only [Fs.fileBlock, Nat.ofNat_pos, dif_pos]
    exact congrArg (fun a => some (treeFs.disk a)) slot
  constructor
  · exact ⟨fun _ _ => rfl, fun _ used => absurd rfl used, fun _ used => absurd rfl used, fun _ _ used => absurd rfl used⟩
  · exact ⟨0, 1, by decide, rfl, rfl⟩
  · constructor <;> decide +kernel
  · exact .inl rfl
  · rintro i (rfl | rfl) dir k lt
    · rw [count] at lt
      obtain rfl : k = 0 := by omega
      exact ⟨_, _, block, treeFs_directory⟩
    · have file : treeFs.graph.isDir 3#32 = false := by decide +kernel
      rw [file] at dir
      cases dir
  · rintro i (rfl | rfl) c j entry
    · obtain ⟨d, first, rfl⟩ := Option.map_eq_some_iff.1 entry
      rw [treeFs_entries.1] at first
      have mem := List.mem_of_find?_eq_some first
      simp only [List.mem_cons, List.not_mem_nil, or_false] at mem
      rcases mem with rfl | rfl
      · exact .inl rfl
      · exact .inr rfl
    · simp [Fs.graph, treeFs_entries.2] at entry

theorem treeFs_holds : treeFs.Holds 0 2#32 := by
  constructor <;> rfl

end Aarch64Os.Kernel
