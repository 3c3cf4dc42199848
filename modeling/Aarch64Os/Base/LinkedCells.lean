import Mathlib.Data.List.Iterate

/-!
# Stacks threaded through a `next` function

An intrusive stack of `n` cells is `List.iterate next top n`: the cells met by
following `next` from `top`. The lemmas say when a stack survives changes of
`next` (`iterate_congr`), and what pushing cells does to it. The last cell's
link is never followed, so it may hold anything. A list that ends in a null link is `Links`.
-/

namespace Base
set_option autoImplicit false

variable {α : Type} {f g : α → α} {a : α} {n : Nat}

/-- Links outside the stack may change. -/
theorem iterate_congr (same : ∀ b ∈ List.iterate f a n, g b = f b) :
    List.iterate g a n = List.iterate f a n := by
  induction n generalizing a with
  | zero => rfl
  | succ n ih =>
    have head : g a = f a := same a (List.mem_cons_self ..)
    have tail := ih (a := f a) fun b hb => same b (List.mem_cons_of_mem _ hb)
    change a :: List.iterate g (g a) n = a :: List.iterate f (f a) n
    rw [head, tail]

/-- Pushing a cell whose link is the old top; under an empty stack the link is free. -/
theorem iterate_push {d : α} (link : n = 0 ∨ f d = a) :
    List.iterate f d (n + 1) = d :: List.iterate f a n := by
  rcases link with rfl | rfl <;> rfl

/-- The cells from `a` on, up to the link that is `null`. -/
def Links (next : α → α) (null : α) : α → List α → Prop
  | a, [] => a = null
  | a, b :: l => a = b ∧ b ≠ null ∧ Links next null (next b) l

namespace Links
variable {null : α} {l : List α}

/-- Links outside the list may change. -/
theorem congr (h : Links f null a l) (same : ∀ b ∈ l, g b = f b) : Links g null a l := by
  induction l generalizing a with
  | nil => exact h
  | cons b l ih =>
    obtain ⟨head, some, rest⟩ := h
    refine ⟨head, some, ?_⟩
    rw [same b List.mem_cons_self]
    exact ih rest fun c mem => same c (List.mem_cons_of_mem b mem)

/-- It is empty when the first link is `null`. -/
theorem eq_null_iff (h : Links f null a l) : a = null ↔ l = [] := by
  cases l with
  | nil => exact iff_of_true h rfl
  | cons b l =>
    obtain ⟨rfl, some, -⟩ := h
    exact iff_of_false some (List.cons_ne_nil a l)

/-- Its first cell, and the rest. -/
theorem uncons (h : Links f null a l) (some : a ≠ null) : ∃ rest, l = a :: rest ∧ Links f null (f a) rest := by
  cases l with
  | nil => exact absurd h some
  | cons b rest =>
    obtain ⟨rfl, -, links⟩ := h
    exact ⟨rest, rfl, links⟩

end Links

end Base
