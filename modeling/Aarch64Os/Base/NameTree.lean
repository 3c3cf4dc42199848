import Mathlib.Logic.Function.Basic
import Mathlib.Data.List.Basic
import Aarch64Os.Base.PathGraph
import Aarch64Os.Base.Transition

/-!
# Trees of names that grow

A graph of directories is looked at from a root: only nodes that names lead to count. A new node is
put into a directory under a name that is not there yet. Every path that led somewhere leads there
still, and the path of the new node leads to it, also when more nodes have been put in. Nodes, names
and the entries of a new directory are parameters.
-/

namespace Base
set_option autoImplicit false

namespace PathGraph
variable {ι ν : Type} {g h k : PathGraph ι ν} {r i j p n : ι} {c : ν} {cs ds : List ν}

/-- Names lead from `r` to `i`. -/
def Reaches (g : PathGraph ι ν) (r i : ι) : Prop := ∃ cs, g.resolve r cs = some i

theorem Reaches.root : g.Reaches r r := ⟨[], rfl⟩

theorem resolve_append (g : PathGraph ι ν) (cs ds : List ν) : ∀ i, g.resolve i (cs ++ ds) = (g.resolve i cs).bind fun j => g.resolve j ds := by
  induction cs with
  | nil => exact fun i => rfl
  | cons c cs ih =>
    intro i
    rw [List.cons_append, resolve, resolve]
    split
    · cases g.entry i c with
      | none => rfl
      | some j => exact ih j
    · rfl

theorem Reaches.resolve (reaches : g.Reaches r i) (leads : g.resolve i cs = some j) : g.Reaches r j := by
  obtain ⟨ds, here⟩ := reaches
  refine ⟨ds ++ cs, ?_⟩
  rw [resolve_append, here, Option.bind_some, leads]

theorem Reaches.entry (reaches : g.Reaches r i) (dir : g.isDir i = true) (entry : g.entry i c = some j) : g.Reaches r j := by
  have leads : g.resolve i [c] = some j := by rw [resolve_entry dir entry, resolve_nil]
  exact reaches.resolve leads

/-- A path with names behind its first node leads on from a directory. -/
theorem resolve_cons_inv (leads : g.resolve i (c :: cs) = some j) : g.isDir i = true ∧ ∃ k, g.entry i c = some k ∧ g.resolve k cs = some j := by
  rw [resolve] at leads
  split at leads
  case isTrue dir =>
    obtain ⟨k, entry, rest⟩ := Option.bind_eq_some_iff.1 leads
    exact ⟨dir, k, entry, rest⟩
  case isFalse => cases leads

/-- A path that leads somewhere comes to directories only, up to its last name. -/
theorem clear_of_resolve (leads : g.resolve i cs = some j) : g.Clear i cs := by
  induction cs generalizing i with
  | nil => exact clear_nil
  | cons c cs ih =>
    obtain ⟨dir, k, entry, rest⟩ := resolve_cons_inv leads
    apply clear_cons dir
    intro k' entry'
    rw [entry] at entry'
    obtain rfl := Option.some.inj entry'
    exact ih rest

/-- A set of nodes that names do not lead out of. -/
theorem resolve_mem (nodes : ι → Prop) (closed : ∀ i, nodes i → g.isDir i = true → ∀ c j, g.entry i c = some j → nodes j)
    (here : nodes i) (leads : g.resolve i cs = some j) : nodes j := by
  induction cs generalizing i with
  | nil =>
    obtain rfl := Option.some.inj leads
    exact here
  | cons c cs ih =>
    obtain ⟨dir, k, entry, rest⟩ := resolve_cons_inv leads
    exact ih (closed i here dir c k entry) rest

/-- Seen from `r`, the two graphs are the same. -/
structure Alike (g h : PathGraph ι ν) (r : ι) : Prop where
  isDir : ∀ i, g.Reaches r i → h.isDir i = g.isDir i
  entry : ∀ i, g.Reaches r i → g.isDir i = true → h.entry i = g.entry i

theorem Alike.refl (g : PathGraph ι ν) (r : ι) : g.Alike g r := ⟨fun _ _ => rfl, fun _ _ _ => rfl⟩

/-- The same paths lead to the same nodes. -/
theorem Alike.resolve (alike : g.Alike h r) (reaches : g.Reaches r i) : h.resolve i cs = g.resolve i cs := by
  induction cs generalizing i with
  | nil => rfl
  | cons c cs ih =>
    rw [PathGraph.resolve, PathGraph.resolve, alike.isDir i reaches]
    split
    case isTrue dir =>
      rw [alike.entry i reaches dir]
      cases entry : g.entry i c with
      | none => rfl
      | some j => exact ih (reaches.entry dir entry)
    case isFalse => rfl

theorem Alike.reaches (alike : g.Alike h r) : h.Reaches r i ↔ g.Reaches r i := by
  unfold Reaches
  simp only [alike.resolve .root]

theorem Alike.trans (first : g.Alike h r) (second : h.Alike k r) : g.Alike k r := by
  constructor
  · intro i reaches
    rw [second.isDir i (first.reaches.2 reaches), first.isDir i reaches]
  · intro i reaches dir
    have dir' : h.isDir i = true := by rw [first.isDir i reaches, dir]
    rw [second.entry i (first.reaches.2 reaches) dir', first.entry i reaches dir]

theorem Alike.symm (alike : g.Alike h r) : h.Alike g r := by
  constructor
  · intro i reaches
    exact (alike.isDir i (alike.reaches.1 reaches)).symm
  · intro i reaches dir
    have known := alike.reaches.1 reaches
    rw [alike.isDir i known] at dir
    exact (alike.entry i known dir).symm

section Link
variable {inside : Option (ν → Option ι)}

/-- Room for a new node `n` in `p`, under the name `c`, with its own entries `inside` if it is a directory. The node is new, the name is free in a directory, and the entries of the new node lead to it or to nodes that are there. -/
structure Fits (g : PathGraph ι ν) (r p : ι) (c : ν) (n : ι) (inside : Option (ν → Option ι)) : Prop where
  parent : g.Reaches r p
  dir : g.isDir p = true
  free : g.entry p c = none
  fresh : ¬ g.Reaches r n
  closed : ∀ f, inside = some f → ∀ d j, f d = some j → j = n ∨ g.Reaches r j

theorem Fits.apart (fits : g.Fits r p c n inside) : p ≠ n := by
  rintro rfl
  exact fits.fresh fits.parent

theorem Fits.ne (fits : g.Fits r p c n inside) (reaches : g.Reaches r i) : i ≠ n := by
  rintro rfl
  exact fits.fresh reaches

/-- Where one graph has room for a node, so has one that looks the same. -/
theorem Alike.fits (alike : g.Alike h r) (fits : g.Fits r p c n inside) : h.Fits r p c n inside where
  parent := alike.reaches.2 fits.parent
  dir := by rw [alike.isDir p fits.parent, fits.dir]
  free := by rw [alike.entry p fits.parent fits.dir, fits.free]
  fresh reaches := fits.fresh (alike.reaches.1 reaches)
  closed f made d j entry := (fits.closed f made d j entry).imp_right alike.reaches.2

variable [DecidableEq ι] [DecidableEq ν]

/-- Node `n` is put into `p` under the name `c`; `inside` are its own entries, if it is a directory. -/
def link (g : PathGraph ι ν) (p : ι) (c : ν) (n : ι) (inside : Option (ν → Option ι)) : PathGraph ι ν where
  isDir := Function.update g.isDir n inside.isSome
  entry := Function.update (Function.update g.entry n (inside.getD fun _ => none)) p (Function.update (g.entry p) c (some n))

namespace Fits

theorem isDir_old (fits : g.Fits r p c n inside) (reaches : g.Reaches r i) : (g.link p c n inside).isDir i = g.isDir i :=
  Function.update_of_ne (fits.ne reaches) ..

theorem entry_old (fits : g.Fits r p c n inside) (reaches : g.Reaches r i) (other : i ≠ p) : (g.link p c n inside).entry i = g.entry i := by
  show Function.update (Function.update _ _ _) _ _ i = _
  rw [Function.update_of_ne other, Function.update_of_ne (fits.ne reaches)]

theorem entry_parent (_ : g.Fits r p c n inside) : (g.link p c n inside).entry p = Function.update (g.entry p) c (some n) :=
  Function.update_self ..

theorem isDir_new (_ : g.Fits r p c n inside) : (g.link p c n inside).isDir n = inside.isSome := Function.update_self ..

theorem entry_new (fits : g.Fits r p c n inside) : (g.link p c n inside).entry n = inside.getD fun _ => none := by
  show Function.update (Function.update _ _ _) _ _ n = _
  rw [Function.update_of_ne fits.apart.symm, Function.update_self]

/-- **Old paths** lead where they led. -/
theorem resolve_old (fits : g.Fits r p c n inside) (reaches : g.Reaches r i) (leads : g.resolve i cs = some j) :
    (g.link p c n inside).resolve i cs = some j := by
  induction cs generalizing i with
  | nil => exact leads
  | cons d cs ih =>
    obtain ⟨dir, k, entry, rest⟩ := resolve_cons_inv leads
    have dir' : (g.link p c n inside).isDir i = true := by rw [fits.isDir_old reaches, dir]
    have entry' : (g.link p c n inside).entry i d = some k := by
      by_cases here : i = p
      · subst here
        have ne : d ≠ c := by
          rintro rfl
          rw [fits.free] at entry
          cases entry
        rw [fits.entry_parent, Function.update_of_ne ne, entry]
      · rw [fits.entry_old reaches here, entry]
    rw [resolve_entry dir' entry']
    exact ih (reaches.entry dir entry) rest

/-- **The new path** leads to the new node. -/
theorem resolve_new (fits : g.Fits r p c n inside) (reaches : g.Reaches r i) (leads : g.resolve i cs = some p) :
    (g.link p c n inside).resolve i (cs ++ [c]) = some n := by
  have dir : (g.link p c n inside).isDir p = true := by rw [fits.isDir_old fits.parent, fits.dir]
  have entry : (g.link p c n inside).entry p c = some n := by rw [fits.entry_parent, Function.update_self]
  rw [resolve_append, fits.resolve_old reaches leads, Option.bind_some, resolve_entry dir entry, resolve_nil]

/-- The nodes are the old ones and the new one. -/
theorem reaches_link (fits : g.Fits r p c n inside) : (g.link p c n inside).Reaches r i ↔ g.Reaches r i ∨ i = n := by
  constructor
  · rintro ⟨cs, leads⟩
    suffices closed : ∀ i, g.Reaches r i ∨ i = n → (g.link p c n inside).isDir i = true → ∀ d j, (g.link p c n inside).entry i d = some j →
        g.Reaches r j ∨ j = n from resolve_mem (fun i => g.Reaches r i ∨ i = n) closed (.inl .root) leads
    intro i here dir d j entry
    rcases here with reaches | rfl
    · rw [fits.isDir_old reaches] at dir
      by_cases same : i = p
      · subst same
        rw [fits.entry_parent] at entry
        by_cases new : d = c
        · subst new
          rw [Function.update_self] at entry
          exact .inr (Option.some.inj entry).symm
        · rw [Function.update_of_ne new] at entry
          exact .inl (reaches.entry dir entry)
      · rw [fits.entry_old reaches same] at entry
        exact .inl (reaches.entry dir entry)
    · rw [fits.entry_new] at entry
      cases made : inside with
      | none =>
        rw [made] at entry
        cases entry
      | some f =>
        rw [made] at entry
        exact (fits.closed f made d j entry).symm
  · rintro (⟨cs, leads⟩ | rfl)
    · exact ⟨cs, fits.resolve_old .root leads⟩
    · obtain ⟨cs, leads⟩ := fits.parent
      exact ⟨cs ++ [c], fits.resolve_new .root leads⟩

end Fits

/-- Graphs that look the same do so with the new node. -/
theorem Alike.link (alike : g.Alike h r) (fits : g.Fits r p c n inside) : (g.link p c n inside).Alike (h.link p c n inside) r := by
  have fits' := alike.fits fits
  constructor
  · intro i reaches
    rcases fits.reaches_link.1 reaches with old | rfl
    · rw [fits'.isDir_old (alike.reaches.2 old), fits.isDir_old old, alike.isDir i old]
    · rw [fits'.isDir_new, fits.isDir_new]
  · intro i reaches dir
    rcases fits.reaches_link.1 reaches with old | rfl
    · rw [fits.isDir_old old] at dir
      by_cases same : i = p
      · subst same
        rw [fits'.entry_parent, fits.entry_parent, alike.entry i old dir]
      · rw [fits'.entry_old (alike.reaches.2 old) same, fits.entry_old old same, alike.entry i old dir]
    · rw [fits'.entry_new, fits.entry_new]

end Link

section Make
variable [DecidableEq ι] [DecidableEq ν]

/-- A node has been made: where its path starts, the names of the path, the node, and whether it is a directory. -/
structure Made (ι ν : Type) where
  start : ι
  path : List ν
  node : ι
  dir : Bool

variable (dots : ι → ι → ν → Option ι)

/-- The entries of the new node, if it is a directory in `p`. -/
def Made.inside (m : Made ι ν) (p : ι) : Option (ν → Option ι) := if m.dir then some (dots m.node p) else none

/-- The front of the path leads to a directory, where the last name is free. -/
inductive Makes (r : ι) (g : PathGraph ι ν) (m : Made ι ν) : PathGraph ι ν → Prop
  | link {front : List ν} {p : ι} {c : ν} : g.Reaches r m.start → m.path = front ++ [c] → g.resolve m.start front = some p →
    g.Fits r p c m.node (m.inside dots p) → Makes r g m (g.link p c m.node (m.inside dots p))

/-- The nodes that have been made, one after the other. -/
inductive MakesAll (r : ι) : PathGraph ι ν → List (Made ι ν) → PathGraph ι ν → Prop
  | nil {g : PathGraph ι ν} : MakesAll r g [] g
  | cons {g h k : PathGraph ι ν} {m : Made ι ν} {ms : List (Made ι ν)} : Makes dots r g m h → MakesAll r h ms k → MakesAll r g (m :: ms) k

variable {dots} {m : Made ι ν} {ms : List (Made ι ν)}

/-- Paths go on leading where they led. -/
theorem MakesAll.resolve (all : MakesAll dots r g ms h) (reaches : g.Reaches r i) (leads : g.resolve i cs = some j) : h.resolve i cs = some j := by
  induction all with
  | nil => exact leads
  | cons makes _ ih =>
    obtain ⟨-, -, -, fits⟩ := makes
    exact ih (fits.reaches_link.2 (.inl reaches)) (fits.resolve_old reaches leads)

/-- **Each node that was made** is found under its path in the end. -/
theorem MakesAll.found (all : MakesAll dots r g ms h) (mem : m ∈ ms) : h.resolve m.start m.path = some m.node := by
  induction all with
  | nil => exact absurd mem List.not_mem_nil
  | cons makes rest ih =>
    rcases List.mem_cons.1 mem with rfl | behind
    · obtain ⟨start, path, leads, fits⟩ := makes
      rw [path]
      exact rest.resolve (fits.reaches_link.2 (.inl start)) (fits.resolve_new start leads)
    · exact ih behind

/-- A graph that looks the same makes the same node. -/
theorem Alike.makes (alike : g.Alike h r) (makes : Makes dots r g m k) : ∃ k', Makes dots r h m k' ∧ k.Alike k' r := by
  obtain ⟨start, path, leads, fits⟩ := makes
  refine ⟨_, .link (alike.reaches.2 start) path ?_ (alike.fits fits), alike.link fits⟩
  rw [alike.resolve start, leads]

end Make

end PathGraph

end Base
