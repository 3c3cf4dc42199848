import Mathlib.Data.List.Nodup
import Mathlib.Data.List.Perm.Basic
import Mathlib.Logic.Function.Iterate

/-!
# Rings threaded through a `next` function

`Path next a l b` holds when following `next` from `a` leads through the cells of `l` to `b`. A
path from a cell back to itself is a ring, which may be entered at any of its cells. What changes
of `next` do to a path, and where a walk along a ring ends.
-/

namespace Base
set_option autoImplicit false

variable {α : Type} {next next' : α → α} {a b c d x : α} {l l' : List α}

/-- `next` leads from `a` through `l` to `b`. -/
def Path (next : α → α) : α → List α → α → Prop
  | a, [], b => next a = b
  | a, c :: l, b => next a = c ∧ Path next c l b

theorem path_append : Path next a (l ++ c :: l') b ↔ Path next a l c ∧ Path next c l' b := by
  induction l generalizing a with
  | nil => exact Iff.rfl
  | cons d l ih => rw [List.cons_append, Path, Path, ih, and_assoc]

/-- The cells that follow those of a path. -/
theorem path_iff_map : Path next a l b ↔ (a :: l).map next = l ++ [b] := by
  induction l generalizing a with
  | nil => simp [Path]
  | cons c l ih => rw [Path, ih, List.map_cons (l := c :: l), List.cons_append, List.cons.injEq]

/-- Only the links of its cells matter. -/
theorem Path.congr (path : Path next a l b) (same : ∀ x ∈ a :: l, next' x = next x) : Path next' a l b := by
  rw [path_iff_map] at path ⊢
  rw [← path]
  exact List.map_congr_left same

/-- Another first cell, which is followed by the same one. -/
theorem Path.restart (path : Path next a l b) (first : next' c = next a) (same : ∀ x ∈ l, next' x = next x) : Path next' c l b := by
  cases l with
  | nil => exact first.trans path
  | cons d l => exact ⟨first.trans path.1, path.2.congr same⟩

/-- The last link. -/
theorem Path.last (path : Path next a l b) : next ((a :: l).getLast (List.cons_ne_nil a l)) = b := by
  induction l generalizing a with
  | nil => exact path
  | cons c l ih => exact ih path.2

/-- Another last link. -/
theorem Path.redirect (path : Path next a l b) (nodup : (a :: l).Nodup)
    (last : next' ((a :: l).getLast (List.cons_ne_nil a l)) = d)
    (same : ∀ x ∈ a :: l, x ≠ (a :: l).getLast (List.cons_ne_nil a l) → next' x = next x) : Path next' a l d := by
  induction l generalizing a with
  | nil => exact last
  | cons c l ih =>
    rw [List.getLast_cons (List.cons_ne_nil c l)] at last same
    have ne : a ≠ (c :: l).getLast (List.cons_ne_nil c l) := by
      intro eq
      exact (List.nodup_cons.1 nodup).1 (eq ▸ List.getLast_mem _)
    refine ⟨(same a List.mem_cons_self ne).trans path.1, ih path.2 (List.nodup_cons.1 nodup).2 last fun x mem => ?_⟩
    exact same x (List.mem_cons_of_mem a mem)

/-- All links but the last lead to cells of the path, which keep its order. -/
theorem Path.inner {r : α → α → Prop} (path : Path next a l b) (order : (a :: l).Pairwise r) (mem : x ∈ a :: l)
    (ne : x ≠ (a :: l).getLast (List.cons_ne_nil a l)) : next x ∈ l ∧ r x (next x) := by
  induction l generalizing a with
  | nil => exact absurd (List.mem_singleton.1 mem) ne
  | cons c l ih =>
    obtain ⟨first, rest⟩ := List.pairwise_cons.1 order
    rcases List.mem_cons.1 mem with rfl | mem
    · rw [path.1]
      exact ⟨List.mem_cons_self, first c List.mem_cons_self⟩
    · rw [List.getLast_cons (List.cons_ne_nil c l)] at ne
      obtain ⟨inside, ordered⟩ := ih path.2 rest mem ne
      exact ⟨List.mem_cons_of_mem c inside, ordered⟩

/-- A ring may be entered at any of its cells. -/
theorem Path.enter (ring : Path next a l a) (mem : x ∈ a :: l) : ∃ us, Path next x us x ∧ (x :: us).Perm (a :: l) := by
  rcases List.mem_cons.1 mem with rfl | mem
  · exact ⟨l, ring, .refl _⟩
  · obtain ⟨l₁, l₂, rfl⟩ := List.append_of_mem mem
    obtain ⟨before, behind⟩ := path_append.1 ring
    refine ⟨l₂ ++ a :: l₁, path_append.2 ⟨behind, before⟩, ?_⟩
    have turned : (x :: l₂ ++ a :: l₁).Perm (a :: l₁ ++ x :: l₂) := List.perm_append_comm
    exact turned

/-- From one cell of a ring the walk comes to any other. -/
theorem Path.between (ring : Path next a l a) (nodup : (a :: l).Nodup) (mem : x ∈ a :: l) (mem' : b ∈ a :: l) (ne : x ≠ b) :
    ∃ us, Path next x us b ∧ (x :: us).Nodup ∧ b ∉ us ∧ (∀ u ∈ us, u ∈ a :: l) ∧ us.length < l.length := by
  obtain ⟨us, round, perm⟩ := ring.enter mem
  have inside : b ∈ us := by
    rcases List.mem_cons.1 (perm.mem_iff.2 mem') with eq | inside
    · exact absurd eq.symm ne
    · exact inside
  obtain ⟨vs, ws, rfl⟩ := List.append_of_mem inside
  have distinct : (x :: (vs ++ b :: ws)).Nodup := perm.nodup_iff.2 nodup
  have length := perm.length_eq
  simp only [List.length_cons, List.length_append] at length
  refine ⟨vs, (path_append.1 round).1, ?_, ?_, fun u mem => ?_, by omega⟩
  · exact distinct.sublist (List.Sublist.cons_cons x (List.sublist_append_left vs _))
  · intro twice
    exact List.disjoint_of_nodup_append (List.nodup_cons.1 distinct).2 twice List.mem_cons_self
  · exact perm.mem_iff.1 (List.mem_cons_of_mem x (List.mem_append_left _ mem))

/-- A cell of a ring is followed by a cell of the ring. -/
theorem Path.next_mem (ring : Path next a l a) (mem : x ∈ a :: l) : next x ∈ a :: l := by
  have image : next x ∈ (a :: l).map next := List.mem_map_of_mem mem
  rw [path_iff_map.1 ring] at image
  simpa [or_comm] using image

/-- So is what comes after any number of cells. -/
theorem Path.iterate_mem (ring : Path next a l a) (mem : x ∈ a :: l) (k : Nat) : next^[k] x ∈ a :: l := by
  induction k with
  | zero => exact mem
  | succ k ih =>
    rw [Function.iterate_succ_apply']
    exact ring.next_mem ih

/-- A cell on a path comes after some number of cells. -/
theorem Path.iterate (path : Path next a l b) (mem : x ∈ a :: l) : ∃ k, next^[k] a = x := by
  induction l generalizing a with
  | nil => exact ⟨0, (List.mem_singleton.1 mem).symm⟩
  | cons c l ih =>
    rcases List.mem_cons.1 mem with rfl | mem
    · exact ⟨0, rfl⟩
    · obtain ⟨k, there⟩ := ih path.2 mem
      refine ⟨k + 1, ?_⟩
      rw [Function.iterate_succ_apply, path.1, there]

/-- No two cells of a ring are followed by the same one. -/
theorem Path.next_inj (ring : Path next a l a) (nodup : (a :: l).Nodup) (mem : x ∈ a :: l) (mem' : b ∈ a :: l)
    (same : next x = next b) : x = b := by
  have images : ((a :: l).map next).Nodup := by
    rw [path_iff_map.1 ring]
    exact (List.perm_append_singleton a l).nodup_iff.2 nodup
  exact List.inj_on_of_nodup_map images mem mem' same

end Base
