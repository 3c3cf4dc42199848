import Mathlib
import Aarch64Os.Base.Ring
import Aarch64Os.Usr.Malloc

/-!
# The ring of free blocks (`usr/malloc.c`)

The free blocks lie in the ring in the order of their addresses, each ending before the next
begins. `free` keeps them so, and joins what touches.
-/

namespace Aarch64Os.Usr
set_option autoImplicit false
open Base

/-- `p->ptr`. -/
def Heap.next (s : Heap) (a : Nat) : Nat := (s.hdr a).ptr

/-- The bytes of the block at `a`. -/
def Heap.span (s : Heap) (a : Nat) : Span := (a, 16 * (s.hdr a).size)

/-- The ring goes from `base`, which has no length, through the blocks of `l`, and each of them ends
before the next begins. -/
structure Heap.Frees (s : Heap) (base : Nat) (l : List Nat) : Prop where
  ring : Path s.next base l base
  apart : (base :: l).Pairwise fun a b => a + 16 * (s.hdr a).size < b
  sentinel : (s.hdr base).size = 0

/-- The blocks tile the memory from `sbrk`, which is above `base`. -/
structure Heap.Tiled (s : Heap) (base : Nat) (blocks : List Nat) : Prop where
  tiles : Tiles s.regions (blocks.map s.span)
  above : ∀ r ∈ s.regions, base + 16 ≤ r.1

/-- The heap with another header at `a`. -/
def Heap.put (s : Heap) (a : Nat) (h : Memhdr) : Heap := { s with hdr := Function.update s.hdr a h }

section Put
variable {s : Heap} {a b base : Nat} {h : Memhdr} {blocks : List Nat}

@[simp] theorem Heap.put_self (s : Heap) (a : Nat) (h : Memhdr) : (s.put a h).hdr a = h := Function.update_self ..

theorem Heap.put_ne (s : Heap) (h : Memhdr) (ne : b ≠ a) : (s.put a h).hdr b = s.hdr b := Function.update_of_ne ne ..

theorem Heap.next_put_ne (s : Heap) (h : Memhdr) (ne : b ≠ a) : (s.put a h).next b = s.next b := by
  unfold Heap.next
  rw [s.put_ne h ne]

/-- The spans of other blocks. -/
theorem Heap.map_span_put (out : a ∉ blocks) : blocks.map (s.put a h).span = blocks.map s.span := by
  refine List.map_congr_left fun b mem => ?_
  have ne : b ≠ a := fun eq => out (eq ▸ mem)
  rw [Heap.span, s.put_ne h ne]
  rfl

theorem load_run {env : Env} (owned : s.Owned env.base a) : load env a s = .ok (s.hdr a, s) := by
  rw [load, bind_runs (get_runs s), if_pos owned]
  rfl

theorem store_run {env : Env} (owned : s.Owned env.base a) : store env a h s = .ok ((), s.put a h) := by
  rw [store, bind_runs (get_runs s), if_pos owned]
  rfl

end Put

section Tiled
variable {s : Heap} {base a b : Nat} {blocks blocks' live : List Nat}

theorem Heap.owned_base (s : Heap) (base : Nat) : s.Owned base base := .inl rfl

/-- Blocks have headers. -/
theorem Heap.Tiled.owned (h : s.Tiled base blocks) (mem : a ∈ blocks) : s.Owned base a := by
  refine .inr fun k lt => ?_
  have inside : s.span a ∈ blocks.map s.span := List.mem_map_of_mem mem
  have pos := h.tiles.pos _ inside
  refine h.tiles.inside _ inside (a + k) ⟨Nat.le_add_right a k, ?_⟩
  simp only [Heap.span] at *
  omega

theorem Heap.Tiled.size_pos (h : s.Tiled base blocks) (mem : a ∈ blocks) : 0 < (s.hdr a).size := by
  have pos := h.tiles.pos (s.span a) (List.mem_map_of_mem mem)
  simp only [Heap.span] at pos
  omega

theorem Heap.Tiled.nodup (h : s.Tiled base blocks) : blocks.Nodup := by
  have starts := h.tiles.starts
  rw [List.map_map] at starts
  exact List.Nodup.of_map _ starts

/-- They lie above `base`. -/
theorem Heap.Tiled.base_lt (h : s.Tiled base blocks) (mem : a ∈ blocks) : base + 16 ≤ a := by
  obtain ⟨r, inside, le⟩ := h.tiles.start (List.mem_map_of_mem mem)
  exact (h.above r inside).trans le

theorem Heap.Tiled.base_not_mem (h : s.Tiled base blocks) : base ∉ blocks := by
  intro mem
  have above := h.base_lt mem
  omega

theorem Heap.Tiled.perm (h : s.Tiled base blocks) (perm : blocks.Perm blocks') : s.Tiled base blocks' :=
  ⟨h.tiles.perm (perm.map _), h.above⟩

/-- Of two blocks, one ends before the other begins. -/
theorem Heap.Tiled.apart (h : s.Tiled base blocks) (mem : a ∈ blocks) (mem' : b ∈ blocks) (lt : a < b) :
    a + 16 * (s.hdr a).size ≤ b := by
  have ne : s.span a ≠ s.span b := by
    intro same
    have starts : a = b := congrArg Prod.fst same
    omega
  have apart := h.tiles.disjoint (List.mem_map_of_mem mem) (List.mem_map_of_mem mem') ne
  have pos := h.size_pos mem'
  simp only [Span.Apart, Heap.span] at apart
  omega

/-- `base` and the first blocks are not among the others. -/
theorem Heap.Tiled.not_behind (h : s.Tiled base (blocks ++ live)) (mem : a ∈ base :: blocks) : a ∉ live := by
  rcases List.mem_cons.1 mem with rfl | mem
  · exact fun mem' => h.base_not_mem (List.mem_append_right blocks mem')
  · exact List.disjoint_of_nodup_append h.nodup mem

/-- A header that is not one of a block. -/
theorem Heap.Tiled.put_outside (h : s.Tiled base blocks) (out : a ∉ blocks) (x : Memhdr) : (s.put a x).Tiled base blocks := by
  refine ⟨?_, h.above⟩
  rw [Heap.map_span_put out]
  exact h.tiles

/-- The blocks do not begin inside one of them. -/
theorem Heap.Tiled.not_inside (h : s.Tiled base blocks) (mem : a ∈ blocks) (lt : a < b) (inside : b < a + 16 * (s.hdr a).size) :
    b ∉ blocks := by
  intro mem'
  have apart := h.apart mem mem' lt
  omega

end Tiled

section Frees
variable {s : Heap} {base bp a b : Nat} {l l₁ l₂ live : List Nat}

/-- The last free block before `bp`. -/
def lastOf (base : Nat) (l : List Nat) : Nat := (base :: l).getLast (List.cons_ne_nil base l)

theorem lastOf_mem (base : Nat) (l : List Nat) : lastOf base l ∈ base :: l := List.getLast_mem _

theorem Heap.Frees.sorted (h : s.Frees base l) : (base :: l).Pairwise (· < ·) :=
  h.apart.imp fun {a b} (lt : a + 16 * (s.hdr a).size < b) => by omega

theorem Heap.Frees.nodup (h : s.Frees base l) : (base :: l).Nodup := h.sorted.imp fun {a b} (lt : a < b) => lt.ne

/-- A header that is not in the ring. -/
theorem Heap.Frees.put_outside (h : s.Frees base l) (out : a ∉ base :: l) (x : Memhdr) : (s.put a x).Frees base l := by
  have ne : ∀ b ∈ base :: l, b ≠ a := fun b mem same => out (same ▸ mem)
  refine ⟨h.ring.congr fun b mem => s.next_put_ne x (ne b mem), h.apart.imp_of_mem fun {b c} mem _ rel => ?_, ?_⟩
  · rw [s.put_ne x (ne b mem)]
    exact rel
  · rw [s.put_ne x (ne base List.mem_cons_self)]
    exact h.sentinel

/-- What follows the blocks before a place. -/
theorem Heap.Frees.split (h : s.Frees base (l₁ ++ l₂)) : ∃ q, Path s.next base l₁ q ∧
    ((l₂ = [] ∧ q = base) ∨ ∃ l, l₂ = q :: l ∧ Path s.next q l base) := by
  cases l₂ with
  | nil =>
    have ring := h.ring
    rw [List.append_nil] at ring
    exact ⟨base, ring, .inl ⟨rfl, rfl⟩⟩
  | cons q l =>
    obtain ⟨before, behind⟩ := path_append.1 h.ring
    exact ⟨q, before, .inr ⟨l, rfl, behind⟩⟩

/-- The loop of `free` goes on at a free block that is not the one before `bp`. -/
theorem Heap.Frees.passes (h : s.Frees base (l₁ ++ l₂)) (below : ∀ a ∈ base :: l₁, a < bp) (above : ∀ b ∈ l₂, bp < b)
    (mem : a ∈ base :: (l₁ ++ l₂)) (ne : a ≠ lastOf base l₁) :
    ¬ (a < bp ∧ bp < s.next a) ∧ ¬ (s.next a ≤ a ∧ (a < bp ∨ bp < s.next a)) := by
  obtain ⟨q, before, last⟩ := h.split
  have sorted := h.sorted
  rw [← List.cons_append] at mem sorted
  obtain ⟨first, second, -⟩ := List.pairwise_append.1 sorted
  rcases List.mem_append.1 mem with low | high
  · obtain ⟨inside, lt⟩ := before.inner first low ne
    have next_lt := below _ (List.mem_cons_of_mem base inside)
    omega
  · have gt := above a high
    have base_lt := below base List.mem_cons_self
    rcases last with ⟨rfl, -⟩ | ⟨l, rfl, behind⟩
    · cases high
    · rcases eq_or_ne a ((q :: l).getLast (List.cons_ne_nil q l)) with rfl | other
      · rw [behind.last]
        omega
      · obtain ⟨inside, lt⟩ := behind.inner second high other
        omega

/-- It stops at the one before `bp`. -/
theorem Heap.Frees.stops (h : s.Frees base (l₁ ++ l₂)) (below : ∀ a ∈ base :: l₁, a < bp) (above : ∀ b ∈ l₂, bp < b) :
    lastOf base l₁ < bp ∧ (bp < s.next (lastOf base l₁) ∨ s.next (lastOf base l₁) ≤ lastOf base l₁) := by
  have lt := below _ (lastOf_mem base l₁)
  obtain ⟨q, before, ⟨rfl, rfl⟩ | ⟨l, rfl, -⟩⟩ := h.split
  · have follows : s.next (lastOf q l₁) = q := before.last
    rw [follows]
    refine ⟨lt, .inr ?_⟩
    rcases List.mem_cons.1 (lastOf_mem q l₁) with same | inside
    · rw [same]
    · have sorted := h.sorted
      rw [List.append_nil] at sorted
      exact (List.rel_of_pairwise_cons sorted inside).le
  · have follows : s.next (lastOf base l₁) = q := before.last
    rw [follows]
    exact ⟨lt, .inl (above q List.mem_cons_self)⟩

/-- The loop of `free` goes on along a path. -/
theorem freeFrom_path {env : Env} (left : Nat) (us : List Nat) : ∀ {a}, Path s.next a us b → (∀ u ∈ a :: us, s.Owned env.base u) →
    (∀ u ∈ a :: us, ¬ (u < bp ∧ bp < s.next u) ∧ ¬ (s.next u ≤ u ∧ (u < bp ∨ bp < s.next u))) →
    freeFrom env bp (us.length + 1 + left) a s = freeFrom env bp left b s := by
  have round : ∀ a left, s.Owned env.base a → ¬ (a < bp ∧ bp < s.next a) ∧ ¬ (s.next a ≤ a ∧ (a < bp ∨ bp < s.next a)) →
      freeFrom env bp (left + 1) a s = freeFrom env bp left (s.next a) s := by
    rintro a left owned ⟨first, second⟩
    unfold Heap.next at first second
    rw [freeFrom, bind_runs (load_run owned), if_neg first, if_neg second]
    rfl
  induction us with
  | nil =>
    intro a path owned passes
    have step : s.next a = b := path
    rw [List.length_nil, Nat.zero_add, Nat.add_comm, round a left (owned a List.mem_cons_self) (passes a List.mem_cons_self), step]
  | cons c us ih =>
    intro a path owned passes
    have count : (c :: us).length + 1 + left = us.length + 1 + left + 1 := by
      rw [List.length_cons]
      omega
    rw [count, round a _ (owned a List.mem_cons_self) (passes a List.mem_cons_self), path.1]
    exact ih path.2 (fun u mem => owned u (List.mem_cons_of_mem a mem)) fun u mem => passes u (List.mem_cons_of_mem a mem)

/-- The loop of `free` finds the free block before `bp`. -/
theorem Heap.Frees.freeFrom_finds {env : Env} (h : s.Frees env.base (l₁ ++ l₂)) (owned : ∀ a ∈ env.base :: (l₁ ++ l₂), s.Owned env.base a)
    (below : ∀ a ∈ env.base :: l₁, a < bp) (above : ∀ b ∈ l₂, bp < b) (start : a ∈ env.base :: (l₁ ++ l₂)) {left : Nat}
    (enough : (l₁ ++ l₂).length < left) : freeFrom env bp left a s = .ok (lastOf env.base l₁, s) := by
  have inside : lastOf env.base l₁ ∈ env.base :: (l₁ ++ l₂) := by
    rw [← List.cons_append]
    exact List.mem_append_left _ (lastOf_mem env.base l₁)
  have found : ∀ left, freeFrom env bp (left + 1) (lastOf env.base l₁) s = .ok (lastOf env.base l₁, s) := by
    intro left
    obtain ⟨lt, next⟩ := h.stops below above
    rw [freeFrom, bind_runs (load_run (owned _ inside))]
    split
    · rfl
    · rw [if_pos]
      · rfl
      · unfold Heap.next at next
        omega
  rcases eq_or_ne a (lastOf env.base l₁) with rfl | ne
  · obtain ⟨rest, rfl⟩ : ∃ n, left = n + 1 := ⟨left - 1, by omega⟩
    exact found rest
  · obtain ⟨us, path, nodup, out, members, short⟩ := h.ring.between h.nodup start inside ne
    obtain ⟨rest, rfl⟩ : ∃ n, left = us.length + 1 + (n + 1) := ⟨left - us.length - 2, by omega⟩
    have cells : ∀ u ∈ a :: us, u ∈ env.base :: (l₁ ++ l₂) := fun u mem => by
      rcases List.mem_cons.1 mem with rfl | mem
      · exact start
      · exact members u mem
    rw [freeFrom_path (rest + 1) us path (fun u mem => owned u (cells u mem)) fun u mem => h.passes below above (cells u mem) ?_, found]
    rintro rfl
    rcases List.mem_cons.1 mem with eq | mem
    · exact ne eq.symm
    · exact out mem

end Frees

section Join
variable {env : Env} {s u : Heap} {bp a b : Nat} {l l₁ l₂ live : List Nat}

/-- The last cell of an ordered list. -/
theorem rel_lastOf {r : Nat → Nat → Prop} (order : (a :: l).Pairwise r) (mem : b ∈ a :: l) (ne : b ≠ lastOf a l) : r b (lastOf a l) := by
  have whole := List.dropLast_append_getLast (List.cons_ne_nil a l)
  rw [← whole] at order mem
  rcases List.mem_append.1 mem with before | last
  · exact (List.pairwise_append.1 order).2.2 b before _ (List.mem_singleton_self _)
  · exact absurd (List.mem_singleton.1 last) ne

/-- The blocks of a list behind `bp` that `joinUp` leaves. -/
theorem Heap.Frees.joinUp_ok (h : s.Frees env.base (l₁ ++ l₂)) (tiled : s.Tiled env.base (bp :: (l₁ ++ l₂) ++ live))
    (below : ∀ a ∈ env.base :: l₁, a < bp) (above : ∀ b ∈ l₂, bp < b) :
    ∃ b l, joinUp env (lastOf env.base l₁) bp s = .ok ((), s.put bp b) ∧ l.Sublist l₂ ∧ Path (s.put bp b).next bp l env.base ∧
      (s.put bp b).Tiled env.base (bp :: (l₁ ++ l) ++ live) ∧ (s.hdr bp).size ≤ b.size ∧ ∀ c ∈ l, bp + 16 * b.size < c := by
  obtain ⟨q, before, last⟩ := h.split
  have follows : (s.hdr (lastOf env.base l₁)).ptr = q := before.last
  have inside : s.Owned env.base bp := tiled.owned List.mem_cons_self
  have first : s.Owned env.base (lastOf env.base l₁) := by
    rcases List.mem_cons.1 (lastOf_mem env.base l₁) with same | mem
    · rw [same]
      exact s.owned_base env.base
    · exact tiled.owned (by simp [mem])
  have base_lt := below env.base List.mem_cons_self
  obtain ⟨-, order, -⟩ := List.pairwise_append.1 (List.cons_append ▸ h.apart : (env.base :: l₁ ++ l₂).Pairwise _)
  have outside : bp ∉ l₁ ++ l₂ ++ live := (List.nodup_cons.1 tiled.nodup).1
  rw [joinUp, bind_runs (load_run first), bind_runs (load_run inside), follows]
  by_cases touch : bp + 16 * (s.hdr bp).size = q
  · obtain ⟨l, rfl, behind⟩ : ∃ l, l₂ = q :: l ∧ Path s.next q l env.base := by
      rcases last with ⟨-, rfl⟩ | found
      · omega
      · exact found
    have owned : s.Owned env.base q := tiled.owned (by simp)
    have outside : bp ∉ l₁ ++ l ++ live := by
      simp only [List.mem_append, List.mem_cons] at outside ⊢
      tauto
    rw [if_pos touch, bind_runs (load_run owned), store_run inside]
    refine ⟨_, l, rfl, List.sublist_cons_self q l, ?_, ⟨?_, tiled.above⟩, Nat.le_add_right _ _, fun c mem => ?_⟩
    · refine behind.restart ?_ fun x mem => s.next_put_ne _ ?_
      · simp [Heap.next]
      · rintro rfl
        exact outside (by simp [mem])
    · -- the two blocks that touch are one
      have order : (bp :: (l₁ ++ q :: l) ++ live).Perm (bp :: q :: (l₁ ++ l ++ live)) := by
        refine List.Perm.cons bp ?_
        simp
      have apart := (tiled.perm order).tiles
      have joined : Tiles s.regions ((bp, 16 * (s.hdr bp).size + 16 * (s.hdr q).size) :: (l₁ ++ l ++ live).map s.span) := by
        have some := tiled.size_pos (List.mem_cons_self (a := bp))
        have some' := tiled.size_pos (a := q) (by simp)
        refine (Tiles.split_iff (by omega) (by omega)).2 ?_
        rw [touch]
        exact apart
      rw [List.cons_append, List.map_cons, Heap.map_span_put outside, Heap.span, Heap.put_self, Nat.mul_add]
      exact joined
    · have gap := List.rel_of_pairwise_cons order mem
      rw [Nat.mul_add]
      omega
  · rw [if_neg touch, store_run inside]
    refine ⟨_, l₂, rfl, List.Sublist.refl l₂, ?_, ⟨?_, tiled.above⟩, le_rfl, fun c mem => ?_⟩
    · have next : (s.put bp { s.hdr bp with ptr := q }).next bp = q := by simp [Heap.next]
      rcases last with ⟨rfl, rfl⟩ | ⟨l, rfl, behind⟩
      · exact next
      · refine ⟨next, behind.congr fun x mem => s.next_put_ne _ ?_⟩
        rintro rfl
        exact outside (by simp only [List.mem_append]; exact .inl (.inr mem))
    · have tiles := tiled.tiles
      rw [List.cons_append, List.map_cons] at tiles ⊢
      rw [Heap.map_span_put outside, Heap.span, Heap.put_self]
      exact tiles
    · have gap := tiled.apart (a := bp) (b := c) List.mem_cons_self (by simp [mem]) (above c mem)
      rcases last with ⟨rfl, -⟩ | ⟨l, rfl, -⟩
      · cases mem
      · have first := tiled.apart (a := bp) (b := q) List.mem_cons_self (by simp) (above q List.mem_cons_self)
        rcases List.mem_cons.1 mem with rfl | mem
        · show bp + 16 * (s.hdr bp).size < c
          omega
        · have far := List.rel_of_pairwise_cons order mem
          show bp + 16 * (s.hdr bp).size < c
          omega

/-- What `joinDown` makes of the blocks before `bp` and of those behind it. -/
theorem joinDown_ok {q : Nat} (before : Path u.next env.base l₁ q) (behind : Path u.next bp l env.base)
    (order : (env.base :: l₁).Pairwise fun a b => a + 16 * (u.hdr a).size < b) (order' : l.Pairwise fun a b => a + 16 * (u.hdr a).size < b)
    (sentinel : (u.hdr env.base).size = 0) (tiled : u.Tiled env.base (bp :: (l₁ ++ l) ++ live))
    (below : ∀ a ∈ env.base :: l₁, a < bp) (gap : ∀ c ∈ l, bp + 16 * (u.hdr bp).size < c) :
    ∃ h l', joinDown env (lastOf env.base l₁) bp u = .ok ((), u.put (lastOf env.base l₁) h) ∧
      (u.put (lastOf env.base l₁) h).Frees env.base l' ∧ (u.put (lastOf env.base l₁) h).Tiled env.base (l' ++ live) ∧
      lastOf env.base l₁ ∈ env.base :: l' ∧ lastOf env.base l₁ ∉ live ∧
      ∃ a ∈ l', (u.hdr bp).size ≤ ((u.put (lastOf env.base l₁) h).hdr a).size := by
  have member := lastOf_mem env.base l₁
  have lt := below _ member
  have last := fun {b} mem ne => rel_lastOf order (b := b) mem ne
  have sorted : (env.base :: l₁).Pairwise (· < ·) := order.imp fun {a b} (lt : a + 16 * (u.hdr a).size < b) => by omega
  have owned : u.Owned env.base (lastOf env.base l₁) := by
    rcases List.mem_cons.1 member with same | mem
    · rw [same]
      exact u.owned_base env.base
    · exact tiled.owned (by simp [mem])
  have free : lastOf env.base l₁ ∉ live := by
    apply tiled.not_behind
    rcases List.mem_cons.1 member with same | mem
    · rw [same]
      exact List.mem_cons_self
    · exact List.mem_cons_of_mem _ (List.mem_cons_of_mem bp (List.mem_append_left l mem))
  have apart : lastOf env.base l₁ + 16 * (u.hdr (lastOf env.base l₁)).size ≤ bp := by
    rcases List.mem_cons.1 member with same | mem
    · rw [same, sentinel]
      exact (below env.base List.mem_cons_self).le
    · exact tiled.apart (by simp [mem]) List.mem_cons_self lt
  have outside : ∀ c ∈ l, c ≠ lastOf env.base l₁ := by
    rintro c mem rfl
    have far := gap _ mem
    omega
  -- another header at the last block before `bp`
  have ring : ∀ h d, h.ptr = d → Path (u.put (lastOf env.base l₁) h).next env.base l₁ d := by
    intro h d link
    refine before.redirect (sorted.imp fun {a b} (lt : a < b) => lt.ne) ?_ fun x _ ne => u.next_put_ne h ne
    exact (congrArg Memhdr.ptr (u.put_self (lastOf env.base l₁) h)).trans link
  have front : ∀ h, (env.base :: l₁).Pairwise fun a b => a + 16 * ((u.put (lastOf env.base l₁) h).hdr a).size < b := by
    intro h
    refine (order.and sorted).imp_of_mem fun {a b} _ mem' rel => ?_
    have ne : a ≠ lastOf env.base l₁ := by
      rintro rfl
      rcases eq_or_ne b (lastOf env.base l₁) with rfl | other
      · exact lt_irrefl _ rel.2
      · have back := rel_lastOf sorted mem' other
        omega
    rw [u.put_ne h ne]
    exact rel.1
  have back : ∀ h, l.Pairwise fun a b => a + 16 * ((u.put (lastOf env.base l₁) h).hdr a).size < b := by
    intro h
    refine order'.imp_of_mem fun {a b} mem _ rel => ?_
    rw [u.put_ne h (outside a mem)]
    exact rel
  have bp_ne : bp ≠ lastOf env.base l₁ := lt.ne'
  rw [joinDown, bind_runs (load_run owned), bind_runs (load_run (tiled.owned List.mem_cons_self))]
  by_cases touch : lastOf env.base l₁ + 16 * (u.hdr (lastOf env.base l₁)).size = bp
  · have inside : lastOf env.base l₁ ∈ l₁ := by
      rcases List.mem_cons.1 member with same | mem
      · rw [same, sentinel] at touch
        rw [same] at lt
        omega
      · exact mem
    rw [if_pos touch, store_run owned]
    refine ⟨_, l₁ ++ l, rfl, ⟨?_, ?_, ?_⟩, ⟨?_, tiled.above⟩, ?_, free, lastOf env.base l₁, List.mem_append_left l inside, ?_⟩
    · cases l with
      | nil =>
        rw [List.append_nil]
        exact ring _ env.base behind
      | cons c l =>
        refine path_append.2 ⟨ring _ c behind.1, behind.2.congr fun x mem => ?_⟩
        exact u.next_put_ne _ (outside x mem)
    · rw [← List.cons_append]
      refine List.pairwise_append.2 ⟨front _, back _, fun a mem c mem' => ?_⟩
      have far := gap c mem'
      rcases eq_or_ne a (lastOf env.base l₁) with rfl | ne
      · rw [u.put_self, Nat.mul_add]
        omega
      · have near := last mem ne
        rw [u.put_ne _ ne]
        omega
    · rw [u.put_ne _ fun same => ?_]
      · exact sentinel
      · rw [← same] at inside
        exact tiled.base_not_mem (by simp [inside])
    · obtain ⟨l₃, l₄, whole⟩ := List.append_of_mem inside
      have order : (bp :: (l₁ ++ l) ++ live).Perm (lastOf env.base l₁ :: bp :: (l₃ ++ l₄ ++ l ++ live)) := by
        refine List.Perm.trans ?_ (List.Perm.swap _ _ _)
        refine List.Perm.cons bp ?_
        conv_lhs => rw [whole]
        simp
      have out : lastOf env.base l₁ ∉ l₃ ++ l₄ ++ l ++ live := by
        have distinct := order.nodup_iff.1 tiled.nodup
        exact fun mem => (List.nodup_cons.1 distinct).1 (List.mem_cons_of_mem bp mem)
      have joined : Tiles u.regions ((lastOf env.base l₁, 16 * (u.hdr (lastOf env.base l₁)).size + 16 * (u.hdr bp).size) ::
          (l₃ ++ l₄ ++ l ++ live).map u.span) := by
        have some := tiled.size_pos (List.mem_cons_self (a := bp))
        have some' := tiled.size_pos (a := lastOf env.base l₁) (by simp [inside])
        refine (Tiles.split_iff (by omega) (by omega)).2 ?_
        rw [touch]
        exact (tiled.perm order).tiles
      have order' : (lastOf env.base l₁ :: (l₃ ++ l₄ ++ l ++ live)).Perm (l₁ ++ l ++ live) := by
        conv_rhs => rw [whole]
        simp only [List.append_assoc, List.cons_append]
        exact List.perm_middle.symm
      refine Tiles.perm ?_ (order'.map _)
      rw [List.map_cons, Heap.map_span_put out, Heap.span, Heap.put_self, Nat.mul_add]
      exact joined
    · exact List.mem_cons_of_mem _ (List.mem_append_left l inside)
    · rw [u.put_self]
      exact Nat.le_add_left _ _
  · rw [if_neg touch, store_run owned]
    refine ⟨_, l₁ ++ bp :: l, rfl, ⟨?_, ?_, ?_⟩, ⟨?_, tiled.above⟩, ?_, free, bp, by simp, ?_⟩
    · refine path_append.2 ⟨ring _ bp rfl, behind.congr fun x mem => u.next_put_ne _ ?_⟩
      rcases List.mem_cons.1 mem with rfl | mem
      · exact bp_ne
      · exact outside x mem
    · rw [← List.cons_append]
      refine List.pairwise_append.2 ⟨front _, List.pairwise_cons.2 ⟨fun c mem => ?_, back _⟩, fun a mem c mem' => ?_⟩
      · rw [u.put_ne _ bp_ne]
        exact gap c mem
      · have upto : a + 16 * ((u.put (lastOf env.base l₁) { u.hdr (lastOf env.base l₁) with ptr := bp }).hdr a).size < bp := by
          rcases eq_or_ne a (lastOf env.base l₁) with rfl | ne
          · rw [u.put_self]
            exact lt_of_le_of_ne apart touch
          · have near := last mem ne
            rw [u.put_ne _ ne]
            omega
        rcases List.mem_cons.1 mem' with rfl | mem'
        · exact upto
        · exact upto.trans (lt_of_le_of_lt (Nat.le_add_right _ _) (gap c mem'))
    · rcases eq_or_ne env.base (lastOf env.base l₁) with same | ne
      · rw [← same, u.put_self]
        exact sentinel
      · rw [u.put_ne _ ne]
        exact sentinel
    · have same : (u.put (lastOf env.base l₁) { u.hdr (lastOf env.base l₁) with ptr := bp }).span = u.span := by
        funext a
        rcases eq_or_ne a (lastOf env.base l₁) with rfl | ne
        · simp [Heap.span]
        · rw [Heap.span, u.put_ne _ ne]
          rfl
      rw [same]
      refine (tiled.perm ?_).tiles
      exact List.Perm.append_right live List.perm_middle.symm
    · rw [← List.cons_append]
      exact List.mem_append_left _ member
    · rw [u.put_ne _ bp_ne]

/-- The blocks before a place and those behind it. -/
theorem exists_split (order : l.Pairwise (· < ·)) (out : bp ∉ l) : ∃ l₁ l₂, l = l₁ ++ l₂ ∧ (∀ a ∈ l₁, a < bp) ∧ ∀ b ∈ l₂, bp < b := by
  induction l with
  | nil => exact ⟨[], [], rfl, nofun, nofun⟩
  | cons a l ih =>
    obtain ⟨first, rest⟩ := List.pairwise_cons.1 order
    rcases Nat.lt_or_ge a bp with lt | ge
    · obtain ⟨l₁, l₂, rfl, low, high⟩ := ih rest fun mem => out (List.mem_cons_of_mem a mem)
      exact ⟨a :: l₁, l₂, rfl, List.forall_mem_cons.2 ⟨lt, low⟩, high⟩
    · have gt : bp < a := lt_of_le_of_ne ge fun same => out (same ▸ List.mem_cons_self)
      exact ⟨[], a :: l, rfl, nofun, List.forall_mem_cons.2 ⟨gt, fun b mem => gt.trans (first b mem)⟩⟩

/-- **Freeing a block.** The ring takes it in. -/
theorem Heap.Frees.free_ok (h : s.Frees env.base l) (tiled : s.Tiled env.base (bp :: l ++ live)) (start : s.freep ∈ env.base :: l) :
    ∃ t l', free env (bp + 16) s = .ok ((), t) ∧ t.Frees env.base l' ∧ t.Tiled env.base (l' ++ live) ∧ t.freep ∈ env.base :: l' ∧
      t.regions = s.regions ∧ (∀ a ∈ live, t.hdr a = s.hdr a) ∧ ∃ a ∈ l', (s.hdr bp).size ≤ (t.hdr a).size := by
  have distinct : (bp :: (l ++ live)).Nodup := tiled.nodup
  have out := (List.nodup_cons.1 distinct).1
  rw [List.mem_append, not_or] at out
  obtain ⟨l₁, l₂, rfl, low, above⟩ := exists_split (List.pairwise_cons.1 h.sorted).2 out.1
  have base_lt : env.base < bp := by
    have above := tiled.base_lt (a := bp) List.mem_cons_self
    omega
  have below : ∀ a ∈ env.base :: l₁, a < bp := List.forall_mem_cons.2 ⟨base_lt, low⟩
  have owned : ∀ a ∈ env.base :: (l₁ ++ l₂), s.Owned env.base a := by
    refine List.forall_mem_cons.2 ⟨s.owned_base _, fun a mem => tiled.owned ?_⟩
    exact List.mem_cons_of_mem bp (List.mem_append_left live mem)
  have enough : (l₁ ++ l₂).length < s.total + 2 := by
    have count := tiled.tiles.length_le
    rw [List.length_map, List.length_append, List.length_cons] at count
    unfold Heap.total
    omega
  have found := h.freeFrom_finds owned below above start enough
  obtain ⟨b, l, up, sub, behind, tiled', size, gap⟩ := h.joinUp_ok tiled below above
  obtain ⟨q, before, -⟩ := h.split
  obtain ⟨order, order', -⟩ := List.pairwise_append.1 (List.cons_append ▸ h.apart : (env.base :: l₁ ++ l₂).Pairwise _)
  have before' : Path (s.put bp b).next env.base l₁ q := before.congr fun x mem => s.next_put_ne b (below x mem).ne
  have order₁ : (env.base :: l₁).Pairwise fun a c => a + 16 * ((s.put bp b).hdr a).size < c := by
    refine order.imp_of_mem fun {a c} mem _ rel => ?_
    rw [s.put_ne b (below a mem).ne]
    exact rel
  have order₂ : l.Pairwise fun a c => a + 16 * ((s.put bp b).hdr a).size < c := by
    refine (order'.sublist sub).imp_of_mem fun {a c} mem _ rel => ?_
    rw [s.put_ne b (above a (sub.subset mem)).ne']
    exact rel
  have sentinel : ((s.put bp b).hdr env.base).size = 0 := by
    rw [s.put_ne b base_lt.ne]
    exact h.sentinel
  obtain ⟨c, l', down, frees, tiled'', member, free, a, mem, size'⟩ := joinDown_ok before' behind order₁ order₂ sentinel tiled' below
    (by simpa using gap)
  rw [s.put_self] at size'
  let t : Heap := { (s.put bp b).put (lastOf env.base l₁) c with freep := lastOf env.base l₁ }
  refine ⟨t, l', ?_, ⟨frees.ring, frees.apart, frees.sentinel⟩, ⟨tiled''.tiles, tiled''.above⟩, member, rfl, fun x mem => ?_, a, mem,
    size.trans size'⟩
  · rw [Usr.free, if_neg (by omega), Nat.add_sub_cancel, bind_runs (get_runs s), bind_runs found, bind_runs up, bind_runs down]
    rfl
  · have ne : x ≠ lastOf env.base l₁ := fun same => free (same ▸ mem)
    have ne' : x ≠ bp := fun same => out.2 (same ▸ mem)
    exact (Heap.put_ne _ c ne).trans (s.put_ne b ne')

end Join

end Aarch64Os.Usr
