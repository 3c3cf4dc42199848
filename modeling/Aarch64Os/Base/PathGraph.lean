import Mathlib.Data.List.Basic

/-!
# Resolving paths in a graph of directories

A graph has directories and other nodes; a directory has at most one entry of each name. A
path is resolved name by name. It leads on only through directories, may go round cycles, and
ends wherever its last name leads. Nodes and names are parameters.
-/

namespace Base
set_option autoImplicit false

/-- Nodes, which of them are directories, and where the names in a directory lead. -/
structure PathGraph (ι ν : Type) where
  isDir : ι → Bool
  entry : ι → ν → Option ι

namespace PathGraph
variable {ι ν : Type} {g : PathGraph ι ν} {i j : ι} {c : ν} {cs front : List ν}

/-- The node a path leads to. -/
def resolve (g : PathGraph ι ν) : ι → List ν → Option ι
  | i, [] => some i
  | i, c :: cs => if g.isDir i then (g.entry i c).bind fun j => g.resolve j cs else none

/-- The nodes it leads through behind the first, as far as it leads. -/
def visits (g : PathGraph ι ν) : ι → List ν → List ι
  | _, [] => []
  | i, c :: cs => if g.isDir i then (g.entry i c).elim [] fun j => j :: g.visits j cs else []

/-- The path never comes to a node with a name left to look up that is not a directory. -/
def Clear (g : PathGraph ι ν) (i : ι) (cs : List ν) : Prop :=
  ∀ front c rest j, cs = front ++ c :: rest → g.resolve i front = some j → g.isDir j = true

@[simp] theorem resolve_nil : g.resolve i [] = some i := rfl

@[simp] theorem visits_nil : g.visits i [] = [] := rfl

theorem resolve_file (file : g.isDir i = false) : g.resolve i (c :: cs) = none := by simp [resolve, file]

theorem resolve_missing (missing : g.entry i c = none) : g.resolve i (c :: cs) = none := by simp [resolve, missing]

theorem resolve_entry (dir : g.isDir i = true) (entry : g.entry i c = some j) : g.resolve i (c :: cs) = g.resolve j cs := by
  simp [resolve, dir, entry]

theorem visits_missing (missing : g.entry i c = none) : g.visits i (c :: cs) = [] := by simp [visits, missing]

theorem visits_entry (dir : g.isDir i = true) (entry : g.entry i c = some j) :
    g.visits i (c :: cs) = j :: g.visits j cs := by
  simp [visits, dir, entry]

theorem clear_nil : g.Clear i [] := by
  intro front c rest j split
  simp at split

/-- The first node has to be a directory when there is a name. -/
theorem Clear.dir (clear : g.Clear i (c :: cs)) : g.isDir i = true := clear [] c cs i rfl rfl

theorem Clear.tail (clear : g.Clear i (c :: cs)) (entry : g.entry i c = some j) : g.Clear j cs := by
  intro front d rest k split leads
  apply clear (c :: front) d rest k (by rw [split]; rfl)
  rw [resolve_entry clear.dir entry]
  exact leads

theorem clear_cons (dir : g.isDir i = true) (tail : ∀ j, g.entry i c = some j → g.Clear j cs) : g.Clear i (c :: cs) := by
  intro front d rest k split leads
  cases front with
  | nil =>
    obtain rfl : i = k := by simpa using leads
    exact dir
  | cons b front =>
    rw [List.cons_append] at split
    obtain ⟨rfl, behind⟩ := List.cons.inj split
    cases entry : g.entry i c with
    | none =>
      rw [resolve_missing entry] at leads
      cases leads
    | some j =>
      rw [resolve_entry dir entry] at leads
      exact tail j entry front d rest k behind leads

end PathGraph

end Base
