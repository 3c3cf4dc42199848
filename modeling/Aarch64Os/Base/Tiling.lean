import Mathlib

/-!
# Tiling regions of memory

A span is a start and a length. Blocks tile regions when they do not overlap, lie inside the
regions and are as long as these together. Cutting a block in two, joining two that touch, and
adding a region with a block of its own keep a tiling.
-/

namespace Base
set_option autoImplicit false

/-- A start and a length. -/
abbrev Span := ℕ × ℕ

/-- `x` lies in the span. -/
def Span.Has (b : Span) (x : ℕ) : Prop := b.1 ≤ x ∧ x < b.1 + b.2

/-- One of the two ends before the other begins. -/
def Span.Apart (b c : Span) : Prop := b.1 + b.2 ≤ c.1 ∨ c.1 + c.2 ≤ b.1

/-- The blocks tile the regions. -/
structure Tiles (regions blocks : List Span) : Prop where
  pos : ∀ b ∈ blocks, 0 < b.2
  apart : blocks.Pairwise Span.Apart
  inside : ∀ b ∈ blocks, ∀ x, Span.Has b x → ∃ r ∈ regions, Span.Has r x
  total : (blocks.map Prod.snd).sum = (regions.map Prod.snd).sum

instance : Std.Symm Span.Apart := ⟨fun _ _ apart => apart.symm⟩

namespace Tiles
variable {regions blocks blocks' bs : List Span} {a m n x : ℕ} {b c r : Span}

theorem nil : Tiles [] [] := ⟨nofun, .nil, nofun, rfl⟩

/-- Two blocks do not overlap. -/
theorem disjoint (h : Tiles regions blocks) (mem : b ∈ blocks) (mem' : c ∈ blocks) (ne : b ≠ c) : Span.Apart b c :=
  h.apart.forall mem mem' ne

theorem perm (h : Tiles regions blocks) (perm : blocks.Perm blocks') : Tiles regions blocks' where
  pos b mem := h.pos b (perm.mem_iff.2 mem)
  apart := (perm.pairwise_iff fun {b c} (apart : Span.Apart b c) => apart.symm).1 h.apart
  inside b mem := h.inside b (perm.mem_iff.2 mem)
  total := by rw [← h.total, (perm.map _).sum_eq]

/-- A block is cut in two, or two that touch are joined. -/
theorem split_iff (left : 0 < m) (right : 0 < n) : Tiles regions ((a, m + n) :: bs) ↔ Tiles regions ((a, m) :: (a + m, n) :: bs) := by
  constructor
  · intro h
    obtain ⟨first, rest⟩ := List.pairwise_cons.1 h.apart
    refine ⟨?_, ?_, ?_, ?_⟩
    · simp only [List.forall_mem_cons]
      exact ⟨left, right, fun b mem => h.pos b (List.mem_cons_of_mem _ mem)⟩
    · refine List.pairwise_cons.2 ⟨?_, List.pairwise_cons.2 ⟨fun c mem => ?_, rest⟩⟩
      · simp only [List.forall_mem_cons]
        refine ⟨.inl (Nat.le_refl _), fun c mem => ?_⟩
        have apart := first c mem
        simp only [Span.Apart] at *
        omega
      · have apart := first c mem
        simp only [Span.Apart] at *
        omega
    · simp only [List.forall_mem_cons]
      have whole := h.inside (a, m + n) List.mem_cons_self
      refine ⟨fun x has => whole x ?_, fun x has => whole x ?_, fun b mem => h.inside b (List.mem_cons_of_mem _ mem)⟩
      · simp only [Span.Has] at *
        omega
      · simp only [Span.Has] at *
        omega
    · have total := h.total
      simp only [List.map_cons, List.sum_cons] at *
      omega
  · intro h
    obtain ⟨first, rest⟩ := List.pairwise_cons.1 h.apart
    obtain ⟨second, rest⟩ := List.pairwise_cons.1 rest
    refine ⟨?_, ?_, ?_, ?_⟩
    · simp only [List.forall_mem_cons]
      exact ⟨Nat.add_pos_left left n, fun b mem => h.pos b (List.mem_cons_of_mem _ (List.mem_cons_of_mem _ mem))⟩
    · refine List.pairwise_cons.2 ⟨fun c mem => ?_, rest⟩
      have one := first c (List.mem_cons_of_mem _ mem)
      have other := second c mem
      have some := h.pos c (List.mem_cons_of_mem _ (List.mem_cons_of_mem _ mem))
      simp only [Span.Apart] at *
      omega
    · simp only [List.forall_mem_cons]
      refine ⟨fun x has => ?_, fun b mem => h.inside b (List.mem_cons_of_mem _ (List.mem_cons_of_mem _ mem))⟩
      simp only [Span.Has] at has
      rcases Nat.lt_or_ge x (a + m) with low | high
      · exact h.inside (a, m) List.mem_cons_self x ⟨has.1, low⟩
      · refine h.inside (a + m, n) (List.mem_cons_of_mem _ List.mem_cons_self) x ⟨high, ?_⟩
        show x < a + m + n
        omega
    · have total := h.total
      simp only [List.map_cons, List.sum_cons] at *
      omega

/-- A new region above the others, as one block. -/
theorem grow (h : Tiles regions blocks) (pos : 0 < r.2) (above : ∀ q ∈ regions, q.1 + q.2 ≤ r.1) : Tiles (r :: regions) (r :: blocks) where
  pos := List.forall_mem_cons.2 ⟨pos, h.pos⟩
  apart := by
    refine List.pairwise_cons.2 ⟨fun c mem => .inr ?_, h.apart⟩
    -- the last place of the other block is in a region below
    have some := h.pos c mem
    obtain ⟨q, inside, has⟩ := h.inside c mem (c.1 + c.2 - 1) ⟨by omega, by omega⟩
    have below := above q inside
    have last := has.2
    omega
  inside := by
    refine List.forall_mem_cons.2 ⟨fun x has => ⟨r, List.mem_cons_self, has⟩, fun b mem x has => ?_⟩
    obtain ⟨q, inside, here⟩ := h.inside b mem x has
    exact ⟨q, List.mem_cons_of_mem r inside, here⟩
  total := by rw [List.map_cons, List.sum_cons, h.total, List.map_cons, List.sum_cons]

/-- Blocks begin where the regions do. -/
theorem start (h : Tiles regions blocks) (mem : b ∈ blocks) : ∃ r ∈ regions, r.1 ≤ b.1 := by
  obtain ⟨r, inside, has⟩ := h.inside b mem b.1 ⟨Nat.le_refl _, Nat.lt_add_of_pos_right (h.pos b mem)⟩
  exact ⟨r, inside, has.1⟩

/-- There are no more blocks than the regions are long. -/
theorem length_le (h : Tiles regions blocks) : blocks.length ≤ (regions.map Prod.snd).sum := by
  rw [← h.total, ← List.length_map (f := Prod.snd)]
  refine List.length_le_sum_of_one_le _ fun n mem => ?_
  obtain ⟨b, inside, rfl⟩ := List.mem_map.1 mem
  exact h.pos b inside

/-- Two blocks that begin at one place are the same one. -/
theorem starts (h : Tiles regions blocks) : (blocks.map Prod.fst).Nodup := by
  refine List.pairwise_map.2 (h.apart.imp_of_mem fun {b c} mem mem' apart same => ?_)
  have some := h.pos b mem
  have some' := h.pos c mem'
  simp only [Span.Apart] at apart
  omega

end Tiles

/-- Spans one behind the other, from `a` on. -/
def Row : ℕ → List Span → Prop
  | _, [] => True
  | a, b :: bs => b.1 = a ∧ Row (a + b.2) bs

namespace Row
variable {a x : ℕ} {bs : List Span}

/-- They cover what is in between. -/
theorem has_iff (h : Row a bs) : (∃ b ∈ bs, Span.Has b x) ↔ a ≤ x ∧ x < a + (bs.map Prod.snd).sum := by
  induction bs generalizing a with
  | nil =>
    simp only [List.map_nil, List.sum_nil, List.not_mem_nil, false_and, exists_false, false_iff]
    omega
  | cons b bs ih =>
    obtain ⟨start, rest⟩ := h
    rw [List.exists_mem_cons_iff, ih rest, List.map_cons, List.sum_cons, Span.Has, start]
    omega

theorem above (h : Row a bs) : ∀ b ∈ bs, a ≤ b.1 := by
  induction bs generalizing a with
  | nil => nofun
  | cons b bs ih =>
    obtain ⟨start, rest⟩ := h
    refine List.forall_mem_cons.2 ⟨start.ge, fun c mem => ?_⟩
    exact (Nat.le_add_right a b.2).trans (ih rest c mem)

/-- They do not overlap. -/
theorem apart (h : Row a bs) : bs.Pairwise Span.Apart := by
  induction bs generalizing a with
  | nil => exact .nil
  | cons b bs ih =>
    obtain ⟨start, rest⟩ := h
    refine List.pairwise_cons.2 ⟨fun c mem => .inl ?_, ih rest⟩
    rw [start]
    exact rest.above c mem

end Row

end Base
