import Mathlib
import Aarch64Os.Kernel.Ext2.Mknod
import Aarch64Os.Kernel.Ext2.Resolve

/-!
# The parent of a path

`ext2_path2inode_parent` stops where the path ends right behind a component, before it has
looked at the inode it is about to return. So a non-directory is returned as a parent, and
with two slashes at the end the last component is looked up like the others, which leaves an
empty name.
-/

namespace Aarch64Os.Kernel
set_option autoImplicit false
open Base

/-- The components `cs` lead from inode `i` to inode `j`: each fits the name buffer, and each
inode on the way finds a place in the table. -/
structure Fs.Leads (s : Fs) (id : InodeId) (i : BitVec 32) (cs : List (List (BitVec 8))) (j : BitVec 32) : Prop where
  short : ∀ c ∈ cs, c.length < DIRENT_NAME_MAX
  resolve : s.graph.resolve i cs = some j
  places : (s.loadAll id (s.graph.visits i cs)).isSome

section Leads
variable {s t : Fs} {nodes : Set (BitVec 32)} {i j k : BitVec 32} {id id' : InodeId} {c : List (BitVec 8)}
  {cs : List (List (BitVec 8))}

theorem Fs.leads_nil : s.Leads id i [] i := ⟨nofun, rfl, rfl⟩

theorem Fs.Leads.eq (h : s.Leads id i [] j) : i = j := by simpa using h.resolve

/-- A first component leads through a directory, to an inode that is then loaded. -/
theorem Fs.Leads.cons_inv (h : s.Leads id i (c :: cs) k) : c.length < DIRENT_NAME_MAX ∧ s.graph.isDir i = true ∧
    ∃ j id' t, s.graph.entry i c = some j ∧ s.load j = some (id', t) ∧ t.Leads id' j cs k := by
  have resolve := h.resolve
  have places := h.places
  have dir : s.graph.isDir i = true := by
    by_contra file
    rw [PathGraph.resolve_file (by simpa using file)] at resolve
    cases resolve
  cases entry : s.graph.entry i c with
  | none =>
    rw [PathGraph.resolve_missing entry] at resolve
    cases resolve
  | some j =>
    rw [PathGraph.resolve_entry dir entry] at resolve
    rw [PathGraph.visits_entry dir entry, Fs.loadAll] at places
    cases loaded : s.load j with
    | none => simp [loaded] at places
    | some p =>
      obtain ⟨id', t⟩ := p
      refine ⟨h.short c List.mem_cons_self, dir, j, id', t, rfl, loaded, ?_⟩
      rw [loaded, Option.bind_some] at places
      have same := Fs.load_graph loaded
      exact ⟨fun c hc => h.short c (List.mem_cons_of_mem _ hc), by rw [same]; exact resolve, by rw [same]; exact places⟩

theorem Fs.Leads.cons (short : c.length < DIRENT_NAME_MAX) (dir : s.graph.isDir i = true)
    (entry : s.graph.entry i c = some j) (loaded : s.load j = some (id', t)) (h : t.Leads id' j cs k) :
    s.Leads id i (c :: cs) k := by
  have same := Fs.load_graph loaded
  have resolve := h.resolve
  have places := h.places
  rw [same] at resolve places
  constructor
  · intro d hd
    rcases List.mem_cons.1 hd with rfl | hd
    · exact short
    · exact h.short d hd
  · rw [PathGraph.resolve_entry dir entry]
    exact resolve
  · rw [PathGraph.visits_entry dir entry, Fs.loadAll, loaded]
    exact places

end Leads

/-- The path ends in two slashes. -/
def EndsTwice (path : List Chr) : Prop := [SLASH, SLASH] <:+ path

instance (path : List Chr) : Decidable (EndsTwice path) := inferInstanceAs (Decidable ([SLASH, SLASH] <:+ path))

section Traverse
variable {s : Fs} {nodes : Set (BitVec 32)} {i : BitVec 32} {id : InodeId} {pi : Option InodeId} {path w rest : List Chr}
  {name : NameBuf} {left : Nat}

/-- `traverse_inode_parent` at the end of the path. -/
theorem traverseInodeParent_end (ending : path.dropWhile (· = SLASH) = []) :
    traverseInodeParent (left + 1) pi path name s = .ok ((pi, name.put []), s) := by
  rw [traverseInodeParent, FsM.bind_of_ok (FsM.lift_ok (skippath_end ending name))]
  cases pi <;> rfl

/-- `traverse_inode_parent` at a component that the path ends with. -/
theorem traverseInodeParent_last (at_w : path.dropWhile (· = SLASH) = w ++ rest) (free : SLASH ∉ w)
    (stop : rest = [] ∨ rest.head? = some SLASH) (short : w.length < DIRENT_NAME_MAX) (last : rest.tail = []) :
    traverseInodeParent (left + 1) pi path name s = .ok ((pi, name.put w), s) := by
  rw [traverseInodeParent, FsM.bind_of_ok (FsM.lift_ok (skippath_word at_w free stop short name))]
  simp only [last, if_true]
  rfl

/-- `traverse_inode_parent` at another component, from `NULL`. -/
theorem traverseInodeParent_null (at_w : path.dropWhile (· = SLASH) = w ++ rest) (free : SLASH ∉ w)
    (stop : rest = [] ∨ rest.head? = some SLASH) (short : w.length < DIRENT_NAME_MAX) (more : rest.tail ≠ []) :
    traverseInodeParent (left + 1) none path name s = .error .undefined := by
  rw [traverseInodeParent, FsM.bind_of_ok (FsM.lift_ok (skippath_word at_w free stop short name))]
  simp only [more, if_false]
  rfl

/-- `traverse_inode_parent` at another component. -/
theorem traverseInodeParent_word (at_w : path.dropWhile (· = SLASH) = w ++ rest) (free : SLASH ∉ w)
    (stop : rest = [] ∨ rest.head? = some SLASH) (short : w.length < DIRENT_NAME_MAX) (more : rest.tail ≠ []) :
    traverseInodeParent (left + 1) (some id) path name s =
      if ! S_ISDIR (s.itable id).mode then .ok ((some id, name.put w), s)
      else (do
        let inum ← ext2SearchDir id (name.put w).mem
        if inum < 0 then pure (none, name.put w)
        else
          let next ← ext2GetInode (BitVec.ofInt 32 inum)
          traverseInodeParent left next rest.tail NameBuf.zero : FsM (Option InodeId × NameBuf)) s := by
  rw [traverseInodeParent, FsM.bind_of_ok (FsM.lift_ok (skippath_word at_w free stop short name))]
  simp only [more, if_false, FsM.bind_of_ok FsM.get_run]
  split <;> rfl

/-- A component too long for the buffer is written past its end. -/
theorem traverseInodeParent_long (at_w : path.dropWhile (· = SLASH) = w ++ rest) (free : SLASH ∉ w)
    (long : DIRENT_NAME_MAX ≤ w.length) : traverseInodeParent (left + 1) pi path name s = .error .undefined := by
  rw [traverseInodeParent, FsM.bind_run, FsM.lift_error (skippath_long at_w free long name)]
  rfl

/-- From `NULL` no inode is returned. -/
theorem traverseInodeParent_lost {r : InodeId} {name' : NameBuf} {t : Fs} :
    traverseInodeParent (left + 1) none path name s ≠ .ok ((some r, name'), t) := by
  intro run
  rcases words_cases SLASH path with ⟨ending, -⟩ | ⟨w, rest, at_w, -, free, stop, -⟩
  · rw [traverseInodeParent_end ending] at run
    cases run
  · rcases Nat.lt_or_ge w.length DIRENT_NAME_MAX with short | long
    · by_cases last : rest.tail = []
      · rw [traverseInodeParent_last at_w free stop short last] at run
        cases run
      · rw [traverseInodeParent_null at_w free stop short last] at run
        cases run
    · rw [traverseInodeParent_long at_w free long] at run
      cases run

end Traverse

section Runs
variable {nodes : Set (BitVec 32)}

/-- Where the components lead, `traverse_inode` goes, through the same loads. -/
theorem traverseInode_runs (left : Nat) : ∀ {s t : Fs} {i j : BitVec 32} {id r : InodeId} {path : List Chr} {name : NameBuf},
    s.WellFormed nodes → i ∈ nodes → s.Holds id i → path.length ≤ left → s.Leads id i (components path) j →
    s.loadAll id (s.graph.visits i (components path)) = some (r, t) →
    traverseInode (left + 1) (some id) path name s = .ok (some r, t) := by
  induction left with
  | zero =>
    intro s t i j id r path name wf mem holds enough leads loads
    obtain rfl : path = [] := List.eq_nil_of_length_eq_zero (by omega)
    rw [traverseInode_end rfl]
    cases loads
    rfl
  | succ left ih =>
    intro s t i j id r path name wf mem holds enough leads loads
    rcases words_cases SLASH path with ⟨ending, none⟩ | ⟨w, rest, at_w, ne, free, stop, first⟩
    · rw [traverseInode_end ending]
      rw [components_nil none] at loads
      cases loads
      rfl
    rw [components_cons first] at leads loads
    obtain ⟨short, dir, k, id', u, entry, loaded, leads'⟩ := leads.cons_inv
    have fits : w.length < DIRENT_NAME_MAX := by simpa using short
    have same := Fs.load_graph loaded
    rw [PathGraph.visits_entry dir entry, Fs.loadAll, loaded, Option.bind_some, ← same] at loads
    rw [traverseInode_word at_w ne free stop fits, holds.isDir, dir]
    simp only [Bool.not_true, Bool.false_eq_true, if_false]
    rw [wf.round_entry mem holds dir fits entry, wf.load_go loaded]
    exact ih (wf.load loaded) (wf.closed i mem _ k entry) (Fs.load_holds loaded) (rest_length at_w ne enough) leads' loads

/-- A component behind a non-directory: that inode is returned as the parent. -/
theorem traverseInodeParent_file (left : Nat) : ∀ {s : Fs} {i j : BitVec 32} {id : InodeId} {path : List Chr} (name : NameBuf)
    {cs behind : List (List (BitVec 8))} {c : List (BitVec 8)}, s.WellFormed nodes → i ∈ nodes → s.Holds id i →
    path.length ≤ left → components path = cs ++ c :: behind → s.Leads id i cs j → c.length < DIRENT_NAME_MAX →
    s.graph.isDir j = false →
    ∃ r name' t, traverseInodeParent (left + 1) (some id) path name s = .ok ((some r, name'), t) ∧
      S_ISDIR (t.itable r).mode = false := by
  induction left with
  | zero =>
    intro s i j id path name cs behind c wf mem holds enough parts leads short file
    obtain rfl : path = [] := List.eq_nil_of_length_eq_zero (by omega)
    simp [components] at parts
  | succ left ih =>
    intro s i j id path name cs behind c wf mem holds enough parts leads short file
    rcases words_cases SLASH path with ⟨-, none⟩ | ⟨w, rest, at_w, ne, free, stop, first⟩
    · rw [components_nil none] at parts
      simp at parts
    rw [components_cons first] at parts
    cases cs with
    | nil =>
      obtain ⟨rfl, -⟩ := List.cons.inj parts
      obtain rfl := leads.eq
      have fits : w.length < DIRENT_NAME_MAX := by simpa using short
      refine ⟨id, name.put w, s, ?_, holds.isDir.trans file⟩
      by_cases last : rest.tail = []
      · exact traverseInodeParent_last at_w free stop fits last
      · rw [traverseInodeParent_word at_w free stop fits last, holds.isDir, file]
        rfl
    | cons b cs =>
      obtain ⟨rfl, others⟩ := List.cons.inj parts
      obtain ⟨fits, dir, k, id', u, entry, loaded, leads'⟩ := leads.cons_inv
      have fits : w.length < DIRENT_NAME_MAX := by simpa using fits
      have more : rest.tail ≠ [] := by
        intro last
        rw [last] at others
        simp [components] at others
      rw [traverseInodeParent_word at_w free stop fits more, holds.isDir, dir]
      simp only [Bool.not_true, Bool.false_eq_true, if_false]
      rw [wf.round_entry mem holds dir fits entry, wf.load_go loaded]
      exact ih NameBuf.zero (wf.load loaded) (wf.closed i mem _ k entry) (Fs.load_holds loaded) (rest_length at_w ne enough) others leads'
        short (by rw [Fs.load_graph loaded]; exact file)

theorem mem_of_append_eq_concat {α : Type} {front w q : List α} {a : α} (ne : w ≠ []) (eq : front ++ w = q ++ [a]) : a ∈ w := by
  have last := congrArg List.getLast? eq
  rw [List.getLast?_append_of_ne_nil _ ne, List.getLast?_concat] at last
  exact List.mem_of_getLast? last

/-- What is behind a component of a path that ends in two slashes. -/
theorem EndsTwice.behind {path w rest : List Chr} (twice : EndsTwice path) (at_w : path.dropWhile (· = SLASH) = w ++ rest)
    (ne : w ≠ []) (free : SLASH ∉ w) : rest.tail ≠ [] ∧ (components rest.tail = [] ∨ EndsTwice rest.tail) := by
  have suffix : w ++ rest <:+ path := at_w ▸ List.dropWhile_suffix _
  obtain ⟨front, whole⟩ := suffix
  obtain ⟨q, ends⟩ := twice
  have both : front ++ (w ++ rest) = q ++ [SLASH] ++ [SLASH] := by rw [whole, ← ends]; simp
  cases rest with
  | nil =>
    rw [List.append_nil] at both
    exact absurd (mem_of_append_eq_concat ne both) free
  | cons x rest =>
    have more : rest ≠ [] := by
      rintro rfl
      rw [← List.append_assoc] at both
      exact free (mem_of_append_eq_concat ne (List.append_inj_left' both rfl))
    refine ⟨more, ?_⟩
    have behind : rest <:+ path := ⟨front ++ w ++ [x], by rw [← whole]; simp⟩
    rw [List.tail_cons]
    rcases Nat.lt_or_ge rest.length 2 with one | two
    · left
      obtain ⟨y, rfl⟩ : ∃ y, rest = [y] := List.length_eq_one_iff.1 (by have := List.length_pos_of_ne_nil more; omega)
      have last : front ++ w ++ [x] ++ [y] = q ++ [SLASH] ++ [SLASH] := by
        rw [← both]
        simp
      have mem : SLASH ∈ [y] := mem_of_append_eq_concat more last
      obtain rfl : SLASH = y := by simpa using mem
      rfl
    · exact .inr (List.suffix_of_suffix_length_le ⟨q, ends⟩ behind two)

/-- All components lead somewhere, and the path ends in two slashes: the name is empty. -/
theorem traverseInodeParent_slashes (left : Nat) : ∀ {s : Fs} {i j : BitVec 32} {id : InodeId} {path : List Chr}
    (name : NameBuf), s.WellFormed nodes → i ∈ nodes → s.Holds id i → path.length ≤ left →
    s.Leads id i (components path) j → components path = [] ∨ EndsTwice path →
    ∃ r name' t, traverseInodeParent (left + 1) (some id) path name s = .ok ((some r, name'), t) ∧ name'.str = [] := by
  induction left with
  | zero =>
    intro s i j id path name wf mem holds enough leads twice
    obtain rfl : path = [] := List.eq_nil_of_length_eq_zero (by omega)
    exact ⟨id, name.put [], s, traverseInodeParent_end rfl, name.put_str (by decide)⟩
  | succ left ih =>
    intro s i j id path name wf mem holds enough leads twice
    rcases words_cases SLASH path with ⟨ending, -⟩ | ⟨w, rest, at_w, ne, free, stop, first⟩
    · exact ⟨id, name.put [], s, traverseInodeParent_end ending, name.put_str (by decide)⟩
    rw [components_cons first] at leads twice
    obtain ⟨more, twice'⟩ := (twice.resolve_left (List.cons_ne_nil _ _)).behind at_w ne free
    obtain ⟨fits, dir, k, id', u, entry, loaded, leads'⟩ := leads.cons_inv
    have fits : w.length < DIRENT_NAME_MAX := by simpa using fits
    rw [traverseInodeParent_word at_w free stop fits more, holds.isDir, dir]
    simp only [Bool.not_true, Bool.false_eq_true, if_false]
    rw [wf.round_entry mem holds dir fits entry, wf.load_go loaded]
    exact ih NameBuf.zero (wf.load loaded) (wf.closed i mem _ k entry) (Fs.load_holds loaded) (rest_length at_w ne enough) leads'
      twice'

end Runs

/-- No component is left at a non-directory, and a path that ends in two slashes does not
lead anywhere. -/
structure Fs.ProperPath (s : Fs) (id : InodeId) (i : BitVec 32) (path : List Chr) : Prop where
  dirs : ∀ cs c behind j, components path = cs ++ c :: behind → s.Leads id i cs j → c.length < DIRENT_NAME_MAX →
    s.graph.isDir j = true
  slashes : EndsTwice path → ∀ j, ¬ s.Leads id i (components path) j

/-- Two slashes at least behind the last component. -/
theorem endsTwice_of_seps {path w rest : List Chr} (at_w : path.dropWhile (· = SLASH) = w ++ rest)
    (stop : rest = [] ∨ rest.head? = some SLASH) (more : rest.tail ≠ []) (none : rest.tail.dropWhile (· = SLASH) = []) :
    EndsTwice path := by
  have suffix : w ++ rest <:+ path := at_w ▸ List.dropWhile_suffix _
  have all : ∀ x ∈ rest, x = SLASH := by
    cases rest with
    | nil => nofun
    | cons x rest =>
      obtain rfl : x = SLASH := by simpa using stop
      intro y hy
      rcases List.mem_cons.1 hy with rfl | hy
      · rfl
      · simpa using List.dropWhile_eq_nil_iff.1 none y hy
  obtain ⟨k, length⟩ : ∃ k, rest.length = k + 2 := by
    have pos := List.length_pos_of_ne_nil more
    rw [List.length_tail] at pos
    exact ⟨rest.length - 2, by omega⟩
  have slashes : rest = List.replicate k SLASH ++ [SLASH, SLASH] := by
    rw [List.eq_replicate_of_mem all, length, List.replicate_add]
    rfl
  refine List.IsSuffix.trans ?_ suffix
  exact ⟨w ++ List.replicate k SLASH, by rw [slashes, List.append_assoc]⟩

section Proper
variable {nodes : Set (BitVec 32)}

theorem Fs.ProperPath.tail {s u : Fs} {i j : BitVec 32} {id id' : InodeId} {path w rest : List Chr} (proper : s.ProperPath id i path)
    (at_w : path.dropWhile (· = SLASH) = w ++ rest) (first : words SLASH path = w :: words SLASH rest.tail)
    (short : w.length < DIRENT_NAME_MAX) (dir : s.graph.isDir i = true) (entry : s.graph.entry i (bytesOf w) = some j)
    (loaded : s.load j = some (id', u)) : u.ProperPath id' j rest.tail := by
  have parts := components_cons first
  have fits : (bytesOf w).length < DIRENT_NAME_MAX := by simpa using short
  constructor
  · intro cs c behind k split leads c_short
    rw [Fs.load_graph loaded]
    exact proper.dirs (bytesOf w :: cs) c behind k (by rw [parts, split]; rfl) (leads.cons fits dir entry loaded) c_short
  · intro twice k leads
    have whole : EndsTwice path := by
      refine List.IsSuffix.trans twice ?_
      refine List.IsSuffix.trans ?_ (at_w ▸ List.dropWhile_suffix _ : w ++ rest <:+ path)
      exact (List.tail_suffix rest).trans (List.suffix_append w rest)
    apply proper.slashes whole k
    rw [parts]
    exact leads.cons fits dir entry loaded

/-- On a proper path, what is returned is the directory that all components but the last lead
to, with the last as the name. -/
theorem traverseInodeParent_proper (left : Nat) : ∀ {s t : Fs} {i : BitVec 32} {id r : InodeId} {path : List Chr}
    {name name' : NameBuf}, s.WellFormed nodes → i ∈ nodes → s.Holds id i → path.length ≤ left → components path ≠ [] →
    s.ProperPath id i path → traverseInodeParent (left + 1) (some id) path name s = .ok ((some r, name'), t) →
    ∃ cs c j, components path = cs ++ [c] ∧ s.Leads id i cs j ∧ s.loadAll id (s.graph.visits i cs) = some (r, t) ∧
      S_ISDIR (t.itable r).mode = true ∧ name'.str = c := by
  induction left with
  | zero =>
    intro s t i id r path name name' wf mem holds enough some proper run
    obtain rfl : path = [] := List.eq_nil_of_length_eq_zero (by omega)
    exact absurd rfl some
  | succ left ih =>
    intro s t i id r path name name' wf mem holds enough some proper run
    rcases words_cases SLASH path with ⟨-, none⟩ | ⟨w, rest, at_w, ne, free, stop, first⟩
    · exact absurd (components_nil none) some
    have parts := components_cons first
    rcases Nat.lt_or_ge w.length DIRENT_NAME_MAX with short | long
    swap
    · rw [traverseInodeParent_long at_w free long] at run
      cases run
    have fits : (bytesOf w).length < DIRENT_NAME_MAX := by simpa using short
    have dir : s.graph.isDir i = true := proper.dirs [] _ _ i parts Fs.leads_nil fits
    by_cases last : rest.tail = []
    · rw [traverseInodeParent_last at_w free stop short last] at run
      cases run
      refine ⟨[], bytesOf w, i, by rw [parts, last]; rfl, Fs.leads_nil, rfl, holds.isDir.trans dir, name.put_str short⟩
    · rw [traverseInodeParent_word at_w free stop short last, holds.isDir, dir] at run
      simp only [Bool.not_true, Bool.false_eq_true, if_false] at run
      cases entry : s.graph.entry i (bytesOf w) with
      | none =>
        rw [wf.round_missing mem holds dir short entry] at run
        cases run
      | some j =>
      rw [wf.round_entry mem holds dir short entry] at run
      cases loaded : s.load j with
      | none =>
        obtain ⟨u, lost⟩ := wf.full_go loaded
          fun next => traverseInodeParent (left + 1) next rest.tail NameBuf.zero
        rw [lost] at run
        exact absurd run traverseInodeParent_lost
      | some p =>
      obtain ⟨id', u⟩ := p
      rw [wf.load_go loaded] at run
      have known := wf.closed i mem _ j entry
      have others : components rest.tail ≠ [] := by
        intro none
        have leads : s.Leads id i (components path) j := by
          rw [parts, none]
          exact Fs.leads_nil.cons fits dir entry loaded
        rcases words_cases SLASH rest.tail with ⟨ending, -⟩ | ⟨w', rest', -, -, -, -, second⟩
        · exact proper.slashes (endsTwice_of_seps at_w stop last ending) j leads
        · rw [components_cons second] at none
          cases none
      obtain ⟨cs, c, k, split, leads, loads, isDir, named⟩ := ih (wf.load loaded) known (Fs.load_holds loaded)
        (rest_length at_w ne enough) others (proper.tail at_w first short dir entry loaded) run
      refine ⟨bytesOf w :: cs, c, k, by rw [parts, split]; rfl, leads.cons fits dir entry loaded, ?_, isDir, named⟩
      rw [PathGraph.visits_entry dir entry, Fs.loadAll, loaded, Option.bind_some, ← Fs.load_graph loaded]
      exact loads

end Proper

/-- The entry and the state a path is followed from, if the root finds a place. -/
def Fs.begins (s : Fs) (cwd : InodeId) (path : List Chr) : Option (InodeId × Fs) :=
  if path.head? = some SLASH then s.load EXT2_ROOT_INO else some (cwd, s)

/-- No component is left at a non-directory, and two slashes do not end a path that leads
anywhere. -/
def Fs.Proper (s : Fs) (cwd : InodeId) (path : List Chr) : Prop :=
  ∀ id t, s.begins cwd path = some (id, t) → t.ProperPath id (s.start cwd path) path

/-- What `ext2_path2inode_parent` is for: an inode it returns is a directory, the one that the
path in front of the last component names, and the last component is in the buffer. -/
def ParentOk (s : Fs) (cwd : InodeId) (path : List Chr) : Prop :=
  ∀ r name t, ext2Path2inodeParent cwd path s = .ok ((some r, name), t) →
    S_ISDIR (t.itable r).mode = true ∧ (components path).getLast? = some name.str ∧
      ∃ u, ext2Path2inode cwd (dropLastWord SLASH path) s = .ok (some r, u)

section Begin
variable {s t : Fs} {nodes : Set (BitVec 32)} {cwd id : InodeId} {path : List Chr} {α : Type} {go : Option InodeId → FsM α}

/-- Both calls start alike. -/
theorem Fs.WellFormed.begin_go (wf : s.WellFormed nodes) (begins : s.begins cwd path = some (id, t)) :
    (pathStart cwd path >>= go) s = go (some id) t := by
  unfold Fs.begins at begins
  unfold pathStart
  split at begins
  case isTrue root =>
    rw [if_pos root]
    exact wf.load_go begins
  case isFalse relative =>
    rw [if_neg relative]
    cases begins
    rfl

theorem Fs.WellFormed.begin_full (wf : s.WellFormed nodes) (full : s.begins cwd path = none) (go : Option InodeId → FsM α) :
    ∃ u, (pathStart cwd path >>= go) s = go none u := by
  unfold Fs.begins at full
  unfold pathStart
  split at full
  case isTrue root =>
    rw [if_pos root]
    exact wf.full_go full go
  case isFalse => cases full

/-- The walk starts in a well-formed volume, at an inode of it. -/
theorem Fs.WellFormed.begins (wf : s.WellFormed nodes) (holds : s.Holds cwd (s.itable cwd).inum)
    (mem : (s.itable cwd).inum ∈ nodes) (begins : s.begins cwd path = some (id, t)) :
    t.WellFormed nodes ∧ s.start cwd path ∈ nodes ∧ t.Holds id (s.start cwd path) := by
  unfold Fs.begins at begins
  unfold Fs.start
  split at begins
  case isTrue root =>
    rw [if_pos root]
    exact ⟨wf.load begins, wf.root, Fs.load_holds begins⟩
  case isFalse relative =>
    rw [if_neg relative]
    cases begins
    exact ⟨wf, mem, holds⟩

end Begin

/-- Components are not empty and have no slash in them. -/
theorem of_mem_components {path : List Chr} {c : List (BitVec 8)} (mem : c ∈ components path) : c ≠ [] ∧ SLASH.val ∉ c := by
  obtain ⟨w, word, rfl⟩ := List.mem_map.1 mem
  obtain ⟨ne, free⟩ := of_mem_words word
  refine ⟨fun empty => ne (List.map_eq_nil_iff.1 empty), fun slash => ?_⟩
  obtain ⟨c, hc, eq⟩ := List.mem_map.1 slash
  exact free (Subtype.ext eq ▸ hc)

section Parent
variable {s : Fs} {nodes : Set (BitVec 32)} {cwd : InodeId} {path : List Chr}

/-- On a proper path the parent and the name are right. -/
theorem Fs.WellFormed.parentOk (wf : s.WellFormed nodes) (holds : s.Holds cwd (s.itable cwd).inum)
    (mem : (s.itable cwd).inum ∈ nodes) (nonempty : components path ≠ [])
    (proper : s.Proper cwd path) : ParentOk s cwd path := by
  intro r name t run
  have named : words SLASH path ≠ [] := fun none => nonempty (components_nil none)
  unfold ext2Path2inodeParent at run
  cases begins : s.begins cwd path with
  | none =>
    obtain ⟨u, lost⟩ := wf.begin_full begins
      fun ino => traverseInodeParent (path.length + 1) ino path NameBuf.zero
    rw [lost] at run
    exact absurd run traverseInodeParent_lost
  | some p =>
  obtain ⟨id, u⟩ := p
  rw [wf.begin_go begins] at run
  obtain ⟨wf', known, holds'⟩ := wf.begins holds mem begins
  obtain ⟨cs, c, j, split, leads, loads, isDir, string⟩ :=
    traverseInodeParent_proper path.length wf' known holds' le_rfl nonempty (proper id u begins) run
  refine ⟨isDir, by rw [split, string, List.getLast?_concat], t, ?_⟩
  have front : components (dropLastWord SLASH path) = cs := by
    have parts : components (dropLastWord SLASH path) = (components path).dropLast := by
      rw [components, words_dropLastWord named, List.map_dropLast]
      rfl
    rw [parts, split, List.dropLast_concat]
  have alike : s.begins cwd (dropLastWord SLASH path) = s.begins cwd path := by
    simp only [Fs.begins, head?_dropLastWord named]
  unfold ext2Path2inode
  rw [wf.begin_go (alike.trans begins)]
  rw [← front] at leads loads
  exact traverseInode_runs _ wf' known holds' le_rfl leads loads

/-- Where they are right, the path is proper. -/
theorem Fs.WellFormed.proper_of_parentOk (wf : s.WellFormed nodes) (holds : s.Holds cwd (s.itable cwd).inum)
    (mem : (s.itable cwd).inum ∈ nodes) (ok : ParentOk s cwd path) {id : InodeId} {t : Fs}
    (begins : s.begins cwd path = some (id, t)) : t.ProperPath id (s.start cwd path) path := by
  obtain ⟨wf', known, holds'⟩ := wf.begins holds mem begins
  have start : ext2Path2inodeParent cwd path s = traverseInodeParent (path.length + 1) (some id) path NameBuf.zero t := by
    unfold ext2Path2inodeParent
    exact wf.begin_go begins
  constructor
  · intro cs c behind j split leads short
    by_contra file
    obtain ⟨r, name, u, run, notDir⟩ := traverseInodeParent_file path.length NameBuf.zero wf' known holds' le_rfl
      split leads short (by simpa using file)
    rw [(ok r name u (start.trans run)).1] at notDir
    cases notDir
  · intro twice j leads
    obtain ⟨r, name, u, run, empty⟩ := traverseInodeParent_slashes path.length NameBuf.zero wf' known holds' le_rfl
      leads (.inr twice)
    have last := (ok r name u (start.trans run)).2.1
    rw [empty] at last
    exact (of_mem_components (List.mem_of_getLast? last)).1 rfl

end Parent

/-- The mode of the inode returned, and the name. -/
def parentSeen (s : Fs) (cwd : InodeId) (path : List Chr) : Option (Option Bool × List (BitVec 8)) :=
  (ext2Path2inodeParent cwd path s).toOption.map fun r => (r.1.1.map fun id => S_ISDIR (r.2.itable id).mode, r.1.2.str)

theorem ParentOk.seen {s : Fs} {cwd : InodeId} {path : List Chr} {b : Bool} {str : List (BitVec 8)} (ok : ParentOk s cwd path)
    (seen : parentSeen s cwd path = some (some b, str)) : b = true ∧ (components path).getLast? = some str := by
  unfold parentSeen at seen
  cases run : ext2Path2inodeParent cwd path s with
  | error e =>
    rw [run] at seen
    cases seen
  | ok result =>
    obtain ⟨⟨pdir, name⟩, t⟩ := result
    rw [run] at seen
    cases pdir with
    | none => cases seen
    | some r =>
      obtain ⟨dir, last, -⟩ := ok r name t run
      cases seen
      exact ⟨dir, last⟩

end Aarch64Os.Kernel
