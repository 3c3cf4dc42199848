import Mathlib
import Aarch64Os.Base.Transition
import Aarch64Os.Usr.FreeList

/-!
# What the user heap keeps (`usr/malloc.c`)

`malloc` takes a block from the ring, or the end of one, and asks for more memory when none is long
enough. In every run, the blocks in use and the free ones tile the memory from `sbrk`.
-/

namespace Aarch64Os.Usr
set_option autoImplicit false
open Base

section Alone
variable {α β : Type} {env : Env} {f : HeapM α} {g : α → HeapM β}

/-- A part of the heap's code that does not call `sbrk`. -/
def Alone (f : HeapM α) : Prop := ∀ s, After f s fun _ t => t.regions = s.regions ∧ t.calls = s.calls

theorem Alone.pure (a : α) : Alone (Pure.pure a) := fun _ => After.pure ⟨rfl, rfl⟩

theorem Alone.bind (first : Alone f) (second : ∀ a, Alone (g a)) : Alone (f >>= g) := by
  intro s
  refine (first s).bind ?_
  intro a t same
  exact (second a t).mono fun _ _ same' => ⟨same'.1.trans same.1, same'.2.trans same.2⟩

theorem get_alone : Alone (get : HeapM Heap) := by
  intro s a t run
  cases run
  exact ⟨rfl, rfl⟩

theorem load_alone (a : Nat) : Alone (load env a) := by
  apply get_alone.bind
  intro s
  split
  · exact .pure _
  · exact fun _ => After.throw _

theorem store_alone (a : Nat) (h : Memhdr) : Alone (store env a h) := by
  intro s
  refine After.step (get_runs s) ?_
  split
  · intro _ t run
    cases run
    exact ⟨rfl, rfl⟩
  · exact After.throw _

theorem freep_alone (p : Nat) : Alone (modify fun s => { s with freep := p } : HeapM Unit) := by
  intro s _ t run
  cases run
  exact ⟨rfl, rfl⟩

theorem freeFrom_alone (bp left : Nat) : ∀ p, Alone (freeFrom env bp left p) := by
  induction left with
  | zero => exact fun _ _ => After.throw _
  | succ left ih =>
    intro p
    apply (load_alone p).bind
    intro h
    split
    · exact .pure p
    · split
      · exact .pure p
      · exact ih h.ptr

theorem joinUp_alone (p bp : Nat) : Alone (joinUp env p bp) := by
  apply (load_alone p).bind
  intro h
  apply (load_alone bp).bind
  intro b
  split
  · exact (load_alone h.ptr).bind fun next => store_alone bp _
  · exact store_alone bp _

theorem joinDown_alone (p bp : Nat) : Alone (joinDown env p bp) := by
  apply (load_alone p).bind
  intro h
  apply (load_alone bp).bind
  intro b
  split
  · exact store_alone p _
  · exact store_alone p _

/-- `free` does not call `sbrk`. -/
theorem free_alone (ptr : Nat) : Alone (free env ptr) := by
  unfold free
  split
  · exact .pure ()
  · refine get_alone.bind fun s => (freeFrom_alone _ _ s.freep).bind fun p => ?_
    exact (joinUp_alone p _).bind fun _ => (joinDown_alone p _).bind fun _ => freep_alone p

theorem takeBlock_alone (nunits prev p : Nat) (h : Memhdr) : Alone (takeBlock env nunits prev p h) := by
  unfold takeBlock
  dsimp only
  split
  · refine (load_alone prev).bind fun before => (store_alone prev _).bind fun _ => ?_
    exact (Alone.pure p).bind fun q => (freep_alone prev).bind fun _ => .pure _
  · refine (store_alone p _).bind fun _ => (load_alone _).bind fun tail => (store_alone _ _).bind fun _ => ?_
    exact (Alone.pure _).bind fun q => (freep_alone prev).bind fun _ => .pure _

end Alone

section Take
variable {env : Env} {s : Heap} {nunits prev p : Nat} {l live : List Nat}

/-- What a call of `malloc` leaves that returns the block at `q`. -/
structure Took (env : Env) (s t : Heap) (nunits q : Nat) (live : List Nat) : Prop where
  free : ∃ l, t.Frees env.base l ∧ t.Tiled env.base (l ++ q :: live) ∧ t.freep ∈ env.base :: l
  size : (t.hdr q).size = nunits
  others : ∀ a ∈ live, t.hdr a = s.hdr a

/-- A block is taken out of the ring, or cut. -/
theorem Heap.Frees.take_ok (h : s.Frees env.base l) (tiled : s.Tiled env.base (l ++ live)) (before : prev ∈ env.base :: l)
    (next : s.next prev = p) (some : 0 < nunits) (fits : nunits ≤ (s.hdr p).size) :
    ∃ t q, takeBlock env nunits prev p (s.hdr p) s = .ok (q + 16, t) ∧ Took env s t nunits q live ∧ t.regions = s.regions ∧
      t.calls = s.calls := by
  have inside : p ∈ l := by
    rcases List.mem_cons.1 (next ▸ h.ring.next_mem before) with rfl | mem
    · rw [h.sentinel] at fits
      omega
    · exact mem
  have owned : s.Owned env.base p := tiled.owned (List.mem_append_left live inside)
  have owned' : s.Owned env.base prev := by
    rcases List.mem_cons.1 before with rfl | mem
    · exact s.owned_base _
    · exact tiled.owned (List.mem_append_left live mem)
  rcases eq_or_lt_of_le fits with same | more
  · obtain ⟨l₁, l₂, rfl⟩ := List.append_of_mem inside
    obtain ⟨front, back⟩ := path_append.1 h.ring
    obtain rfl : prev = lastOf env.base l₁ := by
      have mem : lastOf env.base l₁ ∈ env.base :: (l₁ ++ p :: l₂) := by
        rw [← List.cons_append]
        exact List.mem_append_left _ (lastOf_mem env.base l₁)
      exact h.ring.next_inj h.nodup before mem (next.trans front.last.symm)
    have sub : (env.base :: (l₁ ++ l₂)).Sublist (env.base :: (l₁ ++ p :: l₂)) :=
      .cons_cons _ ((List.sublist_cons_self p l₂).append_left l₁)
    have nodup := h.nodup
    rw [← List.cons_append] at nodup
    obtain ⟨first, second, apart⟩ := List.nodup_append.1 nodup
    let t : Heap := { s.put (lastOf env.base l₁) { s.hdr (lastOf env.base l₁) with ptr := (s.hdr p).ptr } with freep := lastOf env.base l₁ }
    have link : ∀ x, x ≠ lastOf env.base l₁ → t.next x = s.next x := fun x ne => s.next_put_ne _ ne
    have self : t.hdr (lastOf env.base l₁) = { s.hdr (lastOf env.base l₁) with ptr := (s.hdr p).ptr } := s.put_self _ _
    have relink : t.next (lastOf env.base l₁) = s.next p := (congrArg Memhdr.ptr self :)
    have sizes : ∀ x, (t.hdr x).size = (s.hdr x).size := by
      intro x
      rcases eq_or_ne x (lastOf env.base l₁) with rfl | ne
      · exact (congrArg Memhdr.size self :)
      · exact congrArg Memhdr.size (s.put_ne _ ne)
    have spans : t.span = s.span := funext fun x => by rw [Heap.span, sizes]; rfl
    refine ⟨t, p, ?_, ⟨⟨l₁ ++ l₂, ⟨?_, ?_, ?_⟩, ⟨?_, tiled.above⟩, ?_⟩, ?_, fun a mem => ?_⟩, rfl, rfl⟩
    · rw [takeBlock, if_pos same.symm, bind_runs (load_run owned'), bind_runs (store_run owned')]
      rfl
    · have path : ∀ d, s.next p = d → Path t.next env.base l₁ d := fun d follows =>
        front.redirect first (relink.trans follows) fun x _ ne => link x ne
      cases l₂ with
      | nil =>
        rw [List.append_nil]
        exact path env.base back
      | cons c l₂ =>
        refine path_append.2 ⟨path c back.1, back.2.congr fun x mem => link x ?_⟩
        rintro rfl
        exact apart _ (lastOf_mem env.base l₁) _ (List.mem_cons_of_mem p mem) rfl
    · refine (h.apart.sublist sub).imp fun {a b} rel => ?_
      rw [sizes]
      exact rel
    · rw [sizes]
      exact h.sentinel
    · show Tiles s.regions _
      rw [spans]
      refine (tiled.perm ?_).tiles
      rw [List.append_assoc, List.append_assoc]
      exact List.perm_middle.symm.append_left l₁
    · rw [← List.cons_append]
      exact List.mem_append_left _ (lastOf_mem env.base l₁)
    · rw [sizes, same]
    · refine s.put_ne _ ?_
      rintro rfl
      exact tiled.not_behind before mem
  · -- the end of the block is cut off
    have lt : p < p + 16 * ((s.hdr p).size - nunits) := by omega
    have inside' : p + 16 * ((s.hdr p).size - nunits) < p + 16 * (s.hdr p).size := by omega
    have out := tiled.not_inside (List.mem_append_left live inside) lt inside'
    generalize place : p + 16 * ((s.hdr p).size - nunits) = q at lt inside' out
    let u := s.put p { s.hdr p with size := (s.hdr p).size - nunits }
    have owned'' : u.Owned env.base q := by
      refine .inr fun k lt => ?_
      have has := tiled.tiles.inside (s.span p) (List.mem_map_of_mem (List.mem_append_left live inside)) (q + k)
      refine has ⟨?_, ?_⟩
      · show p ≤ q + k
        omega
      · show q + k < p + 16 * (s.hdr p).size
        omega
    let t : Heap := { u.put q { u.hdr q with size := nunits } with freep := prev }
    have self : u.hdr p = { s.hdr p with size := (s.hdr p).size - nunits } := s.put_self p _
    have apart : p ≠ env.base := by
      rintro rfl
      exact tiled.base_not_mem (List.mem_append_left live inside)
    have frees : u.Frees env.base l := by
      refine ⟨h.ring.congr fun x _ => ?_, h.apart.imp fun {a b} rel => ?_, ?_⟩
      · rcases eq_or_ne x p with rfl | ne
        · exact (congrArg Memhdr.ptr self :)
        · exact s.next_put_ne _ ne
      · rcases eq_or_ne a p with rfl | ne
        · rw [self]
          show a + 16 * ((s.hdr a).size - nunits) < b
          omega
        · rw [s.put_ne _ ne]
          exact rel
      · rw [s.put_ne _ apart.symm]
        exact h.sentinel
    have base_lt := tiled.base_lt (List.mem_append_left live inside)
    have outside : q ∉ env.base :: l := by
      intro mem
      rcases List.mem_cons.1 mem with rfl | mem
      · omega
      · exact out (List.mem_append_left live mem)
    have frees' := frees.put_outside outside { u.hdr q with size := nunits }
    refine ⟨t, q, ?_, ⟨⟨l, ⟨frees'.ring, frees'.apart, frees'.sentinel⟩, ⟨?_, tiled.above⟩, before⟩, ?_, fun a mem => ?_⟩, rfl, rfl⟩
    · rw [takeBlock, if_neg more.ne', bind_runs (store_run owned)]
      dsimp only
      rw [place, bind_runs (load_run owned''), bind_runs (store_run owned'')]
      rfl
    · obtain ⟨l₁, l₂, rfl⟩ := List.append_of_mem inside
      have order : (p :: (l₁ ++ l₂ ++ live)).Perm (l₁ ++ p :: l₂ ++ live) := List.perm_middle.symm.append_right live
      have behind : (q :: (l₁ ++ l₂ ++ live)).Perm (l₁ ++ l₂ ++ q :: live) := List.perm_middle.symm
      have order' : (p :: q :: (l₁ ++ l₂ ++ live)).Perm (l₁ ++ p :: l₂ ++ q :: live) :=
        (behind.cons p).trans (List.perm_middle.symm.append_right _)
      have whole := (tiled.perm order.symm).tiles
      have one := (List.nodup_cons.1 (order.nodup_iff.2 tiled.nodup)).1
      have other : q ∉ l₁ ++ l₂ ++ live := fun mem => out (order.mem_iff.1 (List.mem_cons_of_mem p mem))
      have cut : Tiles s.regions ((p, 16 * ((s.hdr p).size - nunits)) :: (p + 16 * ((s.hdr p).size - nunits), 16 * nunits) ::
          (l₁ ++ l₂ ++ live).map s.span) := by
        refine (Tiles.split_iff (by omega) (by omega)).1 ?_
        have length : 16 * ((s.hdr p).size - nunits) + 16 * nunits = 16 * (s.hdr p).size := by omega
        rw [length]
        exact whole
      rw [place] at cut
      refine Tiles.perm ?_ (order'.map _)
      show Tiles s.regions (((u.put q { u.hdr q with size := nunits }).span p) :: ((u.put q { u.hdr q with size := nunits }).span q) ::
        (l₁ ++ l₂ ++ live).map (u.put q { u.hdr q with size := nunits }).span)
      rw [Heap.map_span_put other, Heap.map_span_put one, Heap.span, Heap.span, u.put_ne _ lt.ne, Heap.put_self, Heap.put_self]
      exact cut
    · exact (congrArg Memhdr.size (u.put_self q _) :)
    · have ne : a ≠ q := by
        rintro rfl
        exact out (List.mem_append_right l mem)
      have ne' : a ≠ p := by
        rintro rfl
        exact tiled.not_behind (List.mem_cons_of_mem _ inside) mem
      exact (u.put_ne _ ne).trans (s.put_ne _ ne')

end Take

section Scan
variable {env : Env} {s : Heap} {nunits prev p a : Nat} {l live us : List Nat}

/-- The loop of `malloc` goes on along a path of blocks that are too small. -/
theorem mallocFrom_path (left : Nat) (us : List Nat) : ∀ {prev}, Path s.next prev us p →
    (∀ u ∈ us, s.Owned env.base u ∧ (s.hdr u).size < nunits ∧ u ≠ s.freep) →
    mallocFrom env nunits (us.length + left) prev (s.next prev) s = mallocFrom env nunits left (lastOf prev us) p s := by
  induction us with
  | nil =>
    intro prev path _
    have step : s.next prev = p := path
    rw [List.length_nil, Nat.zero_add, step]
    rfl
  | cons c us ih =>
    intro prev path pass
    obtain ⟨owned, small, other⟩ := pass c List.mem_cons_self
    have count : (c :: us).length + left = us.length + left + 1 := by
      rw [List.length_cons]
      omega
    rw [count, path.1, mallocFrom, bind_runs (load_run owned), if_neg (by omega), bind_runs (get_runs s), if_neg other]
    exact ih path.2 fun u mem => pass u (List.mem_cons_of_mem c mem)

/-- A ring with a block that is long enough: one is taken. -/
theorem Heap.Frees.scan_ok (h : s.Frees env.base l) (tiled : s.Tiled env.base (l ++ live)) (start : s.freep ∈ env.base :: l)
    (some : 0 < nunits) (mem : a ∈ l) (fits : nunits ≤ (s.hdr a).size) {left : Nat} (enough : l.length < left) :
    ∃ t q, mallocFrom env nunits left s.freep (s.next s.freep) s = .ok (q + 16, t) ∧ Took env s t nunits q live ∧
      t.regions = s.regions ∧ t.calls = s.calls := by
  have owned : ∀ u ∈ env.base :: l, s.Owned env.base u :=
    List.forall_mem_cons.2 ⟨s.owned_base _, fun u mem => tiled.owned (List.mem_append_left live mem)⟩
  obtain ⟨us, round, perm⟩ := h.ring.enter start
  have cells : ∀ u ∈ us, u ∈ env.base :: l := fun u mem => perm.mem_iff.1 (List.mem_cons_of_mem _ mem)
  have distinct := perm.nodup_iff.2 h.nodup
  have length : us.length = l.length := Nat.succ.inj perm.length_eq
  -- the first block that is long enough, behind those that are not
  obtain ⟨xs, p, path, short, long, sub, inside⟩ : ∃ xs p, Path s.next s.freep xs p ∧ (∀ u ∈ xs, (s.hdr u).size < nunits) ∧
      nunits ≤ (s.hdr p).size ∧ xs.Sublist us ∧ p ∈ env.base :: l := by
    cases first : us.find? fun u => nunits ≤ (s.hdr u).size with
    | some p =>
      obtain ⟨long, xs, ys, rfl, short⟩ := List.find?_eq_some_iff_append.1 first
      refine ⟨xs, p, (path_append.1 round).1, fun u mem => ?_, of_decide_eq_true long, List.sublist_append_left xs _, cells p (by simp)⟩
      simpa using short u mem
    | none =>
      have short : ∀ u ∈ us, (s.hdr u).size < nunits := fun u mem => by simpa using List.find?_eq_none.1 first u mem
      refine ⟨us, s.freep, round, short, ?_, List.Sublist.refl us, start⟩
      rcases List.mem_cons.1 (perm.mem_iff.2 (List.mem_cons_of_mem env.base mem)) with rfl | mem'
      · exact fits
      · have small := short a mem'
        omega
  obtain ⟨rest, rfl⟩ : ∃ n, left = xs.length + (n + 1) := ⟨left - xs.length - 1, by have le := sub.length_le; omega⟩
  have follows : s.next (lastOf s.freep xs) = p := path.last
  have before : lastOf s.freep xs ∈ env.base :: l := by
    rcases List.mem_cons.1 (lastOf_mem s.freep xs) with same | mem
    · rw [same]
      exact start
    · exact cells _ (sub.subset mem)
  obtain ⟨t, q, take, took, same⟩ := h.take_ok tiled before follows some long
  refine ⟨t, q, ?_, took, same⟩
  rw [mallocFrom_path (rest + 1) xs path fun u mem => ⟨owned u (cells u (sub.subset mem)), short u mem, ?_⟩]
  · rw [mallocFrom, bind_runs (load_run (owned p inside)), if_pos long]
    exact take
  · rintro rfl
    exact (List.nodup_cons.1 distinct).1 (sub.subset mem)

/-- A ring without: more memory is asked for. -/
theorem Heap.Frees.scan_none (h : s.Frees env.base l) (tiled : s.Tiled env.base (l ++ live)) (start : s.freep ∈ env.base :: l)
    (some : 0 < nunits) (small : ∀ a ∈ l, (s.hdr a).size < nunits) (left : Nat) :
    mallocFrom env nunits (l.length + (left + 1)) s.freep (s.next s.freep) s = (do
      let p ← morecore env nunits
      if p = 0 then pure 0
      else
        let h ← load env p
        mallocFrom env nunits left p h.ptr) s := by
  have all : ∀ u ∈ env.base :: l, s.Owned env.base u ∧ (s.hdr u).size < nunits := by
    refine List.forall_mem_cons.2 ⟨⟨s.owned_base _, by rw [h.sentinel]; exact some⟩, fun u mem => ⟨?_, small u mem⟩⟩
    exact tiled.owned (List.mem_append_left live mem)
  obtain ⟨us, round, perm⟩ := h.ring.enter start
  have distinct := perm.nodup_iff.2 h.nodup
  have length : us.length = l.length := Nat.succ.inj perm.length_eq
  obtain ⟨owned, short⟩ := all s.freep start
  rw [← length, mallocFrom_path (left + 1) us round fun u mem => ?_]
  · rw [mallocFrom, bind_runs (load_run owned), if_neg (by omega), bind_runs (get_runs s), if_pos rfl]
  · obtain ⟨owned, short⟩ := all u (perm.mem_iff.1 (List.mem_cons_of_mem _ mem))
    refine ⟨owned, short, ?_⟩
    rintro rfl
    exact (List.nodup_cons.1 distinct).1 mem

end Scan

section More
variable {env : Env} {s : Heap} {nunits : Nat} {nbytes : BitVec 64} {l live : List Nat}

/-- If the next call of `sbrk` is for `n` bytes, it fails, or returns memory above `base` and all
memory returned before. -/
def Env.Rises (env : Env) (s : Heap) (n : Nat) : Prop := env.sbrk s.calls n ≠ 0 →
  env.base + 16 ≤ env.sbrk s.calls n ∧ ∀ r ∈ s.regions, r.1 + r.2 ≤ env.sbrk s.calls n

/-- What `malloc` asks `sbrk` for. -/
def wanted (nbytes : BitVec 64) : Nat := 16 * max (units nbytes) MINALLOC

/-- The heap after a call of `sbrk`. -/
def Heap.grown (s : Heap) (up bytes : Nat) : Heap := { s with calls := s.calls + 1, regions := (up, bytes) :: s.regions }

/-- The argument of `sbrk`: the `int` that `morecore` makes of the bytes. -/
def asked (nbytes : BitVec 64) : BitVec 32 := BitVec.ofNat 32 (wanted nbytes)

theorem most_units (nunits : Nat) : (if MINALLOC > nunits then MINALLOC else nunits) = max nunits MINALLOC := by
  split
  · exact (max_eq_right (by omega)).symm
  · exact (max_eq_left (by omega)).symm

/-- There is no memory. -/
theorem morecore_null (none : env.sbrk s.calls (BitVec.ofNat 32 (16 * max nunits MINALLOC)).toInt = 0) :
    morecore env nunits s = .ok (0, { s with calls := s.calls + 1 }) := by
  unfold morecore
  rw [most_units]
  have call : sbrk env (BitVec.ofNat 32 (16 * max nunits MINALLOC)).toInt s = .ok (0, { s with calls := s.calls + 1 }) := by
    rw [sbrk, bind_runs (get_runs s), bind_runs (set_runs s _), none]
    rfl
  rw [bind_runs call]
  rfl

/-- New memory becomes a free block, where what was asked for is what was wanted. -/
theorem Heap.Frees.morecore_ok (h : s.Frees env.base l) (tiled : s.Tiled env.base (l ++ live)) (start : s.freep ∈ env.base :: l)
    (bytes : (BitVec.ofNat 32 (16 * max nunits MINALLOC)).toInt = ((16 * max nunits MINALLOC : Nat) : Int))
    (rises : env.Rises s (16 * max nunits MINALLOC)) (up : env.sbrk s.calls ((16 * max nunits MINALLOC : Nat) : Int) ≠ 0) :
    ∃ t l', morecore env nunits s = .ok (t.freep, t) ∧ t.Frees env.base l' ∧ t.Tiled env.base (l' ++ live) ∧ t.freep ∈ env.base :: l' ∧
      t.regions = (env.sbrk s.calls ((16 * max nunits MINALLOC : Nat) : Int), 16 * max nunits MINALLOC) :: s.regions ∧
      t.calls = s.calls + 1 ∧ (∀ a ∈ live, t.hdr a = s.hdr a) ∧ ∃ a ∈ l', nunits ≤ (t.hdr a).size := by
  have least : MINALLOC ≤ max nunits MINALLOC := le_max_right ..
  have some : MINALLOC = 512 := rfl
  have units : nunits ≤ max nunits MINALLOC := le_max_left ..
  unfold morecore
  rw [most_units, bytes]
  generalize max nunits MINALLOC = n at *
  obtain ⟨above, rising⟩ := rises up
  generalize place : env.sbrk s.calls ((16 * n : Nat) : Int) = p at up above rising
  have call : sbrk env ((16 * n : Nat) : Int) s = .ok (p, s.grown p (16 * n)) := by
    rw [sbrk, bind_runs (get_runs s), bind_runs (set_runs s _), place, if_neg up]
    rfl
  have owned : (s.grown p (16 * n)).Owned env.base p := .inr fun k lt => ⟨_, List.mem_cons_self, Nat.le_add_right p k, by
    show p + k < p + 16 * n
    omega⟩
  have out : p ∉ l ++ live := by
    intro mem
    have pos := tiled.size_pos mem
    obtain ⟨r, inside, has⟩ := tiled.tiles.inside _ (List.mem_map_of_mem mem) p ⟨le_rfl, by
      show p < p + 16 * (s.hdr p).size
      omega⟩
    have below := rising r inside
    have last := has.2
    omega
  have outside : p ∉ env.base :: l := by
    intro mem
    rcases List.mem_cons.1 mem with rfl | mem
    · omega
    · exact out (List.mem_append_left live mem)
  let u := (s.grown p (16 * n)).put p { (s.grown p (16 * n)).hdr p with size := n }
  have frees : u.Frees env.base l := by
    have same := h.put_outside outside { s.hdr p with size := n }
    exact ⟨same.ring, same.apart, same.sentinel⟩
  have tiled' : u.Tiled env.base (p :: l ++ live) := by
    refine ⟨?_, List.forall_mem_cons.2 ⟨above, tiled.above⟩⟩
    rw [List.cons_append, List.map_cons, Heap.map_span_put out, Heap.span, Heap.put_self]
    exact tiled.tiles.grow (r := (p, 16 * n)) (show 0 < 16 * n by omega) rising
  obtain ⟨t, l', run, frees', tiled'', start', regions, others, a, mem, size⟩ := frees.free_ok tiled' start
  refine ⟨t, l', ?_, frees', tiled'', start', regions, (free_alone _ u _ _ run).2, fun a mem => ?_, a, mem, units.trans ?_⟩
  · rw [bind_runs call, if_neg up, bind_runs (load_run owned), bind_runs (store_run owned), bind_runs run]
    rfl
  · refine (others a mem).trans (Heap.put_ne _ _ ?_)
    rintro rfl
    exact out (List.mem_append_right l mem)
  · refine le_trans ?_ size
    rw [Heap.put_self]

/-- A request that the rounding up to units does not wrap around. -/
def Rounds (nbytes : BitVec 64) : Prop := nbytes.toNat + 15 < 2 ^ 64

theorem Rounds.units {nbytes : BitVec 64} (rounds : Rounds nbytes) : units nbytes = (nbytes.toNat + 15) / 16 + 1 := by
  unfold Rounds at rounds
  unfold Usr.units
  have whole : (nbytes + 15#64).toNat = nbytes.toNat + 15 := by
    rw [BitVec.toNat_add, BitVec.toNat_ofNat, Nat.mod_eq_of_lt (a := 15) (by norm_num), Nat.mod_eq_of_lt (by omega)]
  have parts : ((nbytes + 15#64) / 16#64).toNat = (nbytes.toNat + 15) / 16 := by
    rw [BitVec.toNat_udiv, whole, BitVec.toNat_ofNat, Nat.mod_eq_of_lt (by norm_num)]
  rw [BitVec.toNat_add, parts, BitVec.toNat_ofNat, Nat.mod_eq_of_lt (a := 1) (by norm_num), Nat.mod_eq_of_lt (by omega)]

theorem Rounds.units_enough {nbytes : BitVec 64} (rounds : Rounds nbytes) : nbytes.toNat + 16 ≤ 16 * Usr.units nbytes := by
  rw [rounds.units]
  omega

/-- One that it does wrap around is taken for one of no bytes. -/
theorem units_wrapped {nbytes : BitVec 64} (wraps : ¬ Rounds nbytes) : units nbytes = 1 := by
  unfold Rounds at wraps
  unfold Usr.units
  have lt := nbytes.isLt
  have whole : (nbytes + 15#64).toNat = nbytes.toNat + 15 - 2 ^ 64 := by
    rw [BitVec.toNat_add, BitVec.toNat_ofNat, Nat.mod_eq_of_lt (a := 15) (by norm_num)]
    omega
  have parts : ((nbytes + 15#64) / 16#64).toNat = 0 := by
    rw [BitVec.toNat_udiv, whole, BitVec.toNat_ofNat, Nat.mod_eq_of_lt (by norm_num)]
    omega
  rw [BitVec.toNat_add, parts]
  rfl

theorem units_pos (nbytes : BitVec 64) : 0 < units nbytes := by
  by_cases rounds : Rounds nbytes
  · rw [rounds.units]
    omega
  · rw [units_wrapped rounds]
    exact Nat.zero_lt_one

/-- A request whose size with its header, in bytes, is a positive `int`. -/
def Small (nbytes : BitVec 64) : Prop := 16 * ((nbytes.toNat + 15) / 16 + 1) < 2 ^ 31

theorem Small.rounds {nbytes : BitVec 64} (small : Small nbytes) : Rounds nbytes := by
  unfold Small at small
  unfold Rounds
  omega

/-- What is asked for is what is wanted. -/
theorem Small.bytes {nbytes : BitVec 64} (small : Small nbytes) : (asked nbytes).toInt = (wanted nbytes : Int) := by
  have units := small.rounds.units
  have lt : wanted nbytes < 2 ^ 31 := by
    have least : MINALLOC = 512 := rfl
    unfold Small at small
    rw [wanted, units]
    omega
  have whole : (asked nbytes).toNat = wanted nbytes := by
    rw [asked, BitVec.toNat_ofNat, Nat.mod_eq_of_lt (by omega)]
  rw [BitVec.toInt_eq_toNat_of_lt (by omega), whole]

/-- A call of `malloc` on a ring is its loop, with rounds enough to go around. -/
theorem Heap.Tiled.malloc_loop (tiled : s.Tiled env.base (l ++ live)) (start : s.freep ∈ env.base :: l) (nonzero : nbytes ≠ 0) : malloc env nbytes s = mallocFrom env (units nbytes)
    (2 * (s.total + 16 * max (units nbytes) MINALLOC) + 4) s.freep (s.next s.freep) s ∧ l.length ≤ s.total := by
  have owned : ∀ u ∈ env.base :: l, s.Owned env.base u :=
    List.forall_mem_cons.2 ⟨s.owned_base _, fun u mem => tiled.owned (List.mem_append_left live mem)⟩
  have pointer : s.freep ≠ 0 := by
    have pos := env.base_pos
    rcases List.mem_cons.1 start with same | mem
    · omega
    · have above := tiled.base_lt (List.mem_append_left live mem)
      omega
  have count := tiled.tiles.length_le
  rw [List.length_map, List.length_append] at count
  have init : initRing env s = .ok ((), s) := by
    rw [initRing, bind_runs (get_runs s), if_neg pointer]
    rfl
  constructor
  · rw [malloc, if_neg nonzero, bind_runs init, bind_runs (get_runs s), bind_runs (load_run (owned _ start))]
    rfl
  · unfold Heap.total
    omega

section Ring
variable (h : s.Frees env.base l) (tiled : s.Tiled env.base (l ++ live)) (start : s.freep ∈ env.base :: l)
include h tiled start

/-- A free block is long enough. -/
theorem Heap.Frees.malloc_served (nonzero : nbytes ≠ 0) (fits : ∃ a ∈ l, units nbytes ≤ (s.hdr a).size) :
    ∃ t q, malloc env nbytes s = .ok (q + 16, t) ∧ Took env s t (units nbytes) q live ∧ t.regions = s.regions ∧ t.calls = s.calls := by
  obtain ⟨loop, count⟩ := tiled.malloc_loop start nonzero
  obtain ⟨a, mem, fits⟩ := fits
  rw [loop]
  exact h.scan_ok tiled start (units_pos nbytes) mem fits (by omega)

/-- None is, and more memory is asked for. -/
theorem Heap.Frees.malloc_asks (nonzero : nbytes ≠ 0) (small : ∀ a ∈ l, (s.hdr a).size < units nbytes) :
    ∃ left, 2 * (s.total + 16 * max (units nbytes) MINALLOC) + 4 = l.length + (left + 1) ∧ malloc env nbytes s = (do
      let p ← morecore env (units nbytes)
      if p = 0 then pure 0
      else
        let h ← load env p
        mallocFrom env (units nbytes) left p h.ptr) s := by
  obtain ⟨loop, count⟩ := tiled.malloc_loop start nonzero
  obtain ⟨left, split⟩ : ∃ left, 2 * (s.total + 16 * max (units nbytes) MINALLOC) + 4 = l.length + (left + 1) :=
    ⟨2 * (s.total + 16 * max (units nbytes) MINALLOC) + 4 - l.length - 1, by omega⟩
  refine ⟨left, split, ?_⟩
  rw [loop, split, h.scan_none tiled start (units_pos nbytes) small left]

/-- There is none. -/
theorem Heap.Frees.malloc_null (nonzero : nbytes ≠ 0) (small : ∀ a ∈ l, (s.hdr a).size < units nbytes)
    (none : env.sbrk s.calls (asked nbytes).toInt = 0) : malloc env nbytes s = .ok (0, { s with calls := s.calls + 1 }) := by
  obtain ⟨left, -, asks⟩ := h.malloc_asks tiled start nonzero small
  rw [asks, bind_runs (morecore_null none), if_pos rfl]
  rfl

/-- There is as much as was wanted. -/
theorem Heap.Frees.malloc_more (nonzero : nbytes ≠ 0) (small : ∀ a ∈ l, (s.hdr a).size < units nbytes)
    (bytes : (asked nbytes).toInt = (wanted nbytes : Int)) (rises : env.Rises s (wanted nbytes)) (up : env.sbrk s.calls (wanted nbytes) ≠ 0) :
    ∃ t q, malloc env nbytes s = .ok (q + 16, t) ∧ Took env s t (units nbytes) q live ∧
      t.regions = (env.sbrk s.calls (wanted nbytes), wanted nbytes) :: s.regions ∧ t.calls = s.calls + 1 := by
  obtain ⟨left, split, asks⟩ := h.malloc_asks tiled start nonzero small
  obtain ⟨t, l', run, frees, tiled', start', regions, calls, others, a, mem, fits⟩ := h.morecore_ok tiled start bytes rises up
  have pointer : t.freep ≠ 0 := by
    have pos := env.base_pos
    rcases List.mem_cons.1 start' with same | mem
    · omega
    · have above := tiled'.base_lt (List.mem_append_left live mem)
      omega
  have owned : t.Owned env.base t.freep := by
    rcases List.mem_cons.1 start' with same | mem
    · rw [same]
      exact t.owned_base _
    · exact tiled'.owned (List.mem_append_left live mem)
  have count := tiled'.tiles.length_le
  rw [List.length_map, List.length_append] at count
  have total : t.total = 16 * max (units nbytes) MINALLOC + s.total := by
    unfold Heap.total
    rw [regions, List.map_cons, List.sum_cons]
  have enough : l'.length < left := by
    obtain ⟨-, below⟩ := tiled.malloc_loop start nonzero
    unfold Heap.total at *
    omega
  obtain ⟨v, q, run', took, regions', calls'⟩ := frees.scan_ok tiled' start' (units_pos nbytes) mem fits enough
  refine ⟨v, q, ?_, ⟨took.free, took.size, fun a mem => (took.others a mem).trans (others a mem)⟩, regions'.trans regions, calls'.trans calls⟩
  rw [asks, bind_runs run, if_neg pointer, bind_runs (load_run owned)]
  exact run'

/-- **A call of `malloc`** on a ring: it fails, or returns a block. -/
theorem Heap.Frees.malloc_ok (rises : env.Rises s (wanted nbytes)) (small : Small nbytes) (nonzero : nbytes ≠ 0) :
    ∃ r t, malloc env nbytes s = .ok (r, t) ∧
      ((r = 0 ∧ (∃ l', t.Frees env.base l' ∧ t.Tiled env.base (l' ++ live) ∧ t.freep ∈ env.base :: l') ∧ ∀ a ∈ live, t.hdr a = s.hdr a) ∨
        ∃ q, r = q + 16 ∧ Took env s t (units nbytes) q live) := by
  by_cases fits : ∃ a ∈ l, units nbytes ≤ (s.hdr a).size
  · obtain ⟨t, q, run, took, -⟩ := h.malloc_served tiled start nonzero fits
    exact ⟨_, t, run, .inr ⟨q, rfl, took⟩⟩
  · push Not at fits
    rcases eq_or_ne (env.sbrk s.calls (wanted nbytes)) 0 with none | up
    · refine ⟨0, _, h.malloc_null tiled start nonzero fits (small.bytes ▸ none), .inl ⟨rfl, ⟨l, ?_⟩, fun _ _ => rfl⟩⟩
      exact ⟨⟨h.ring, h.apart, h.sentinel⟩, ⟨tiled.tiles, tiled.above⟩, start⟩
    · obtain ⟨t, q, run, took, -⟩ := h.malloc_more tiled start nonzero fits small.bytes rises up
      exact ⟨_, t, run, .inr ⟨q, rfl, took⟩⟩

end Ring

/-- The first call makes the ring, and goes on as any other. -/
theorem malloc_first (env : Env) (none : s.freep = 0) (nonzero : nbytes ≠ 0) : malloc env nbytes s =
    malloc env nbytes ({ s with freep := env.base }.put env.base { ptr := env.base, size := 0 }) := by
  let t : Heap := { s with freep := env.base }.put env.base { ptr := env.base, size := 0 }
  have here : initRing env s = .ok ((), t) := by
    rw [initRing, bind_runs (get_runs s), if_pos none, bind_runs (set_runs s _)]
    exact store_run (Heap.owned_base _ env.base)
  have there : initRing env t = .ok ((), t) := by
    rw [initRing, bind_runs (get_runs t), if_neg (show t.freep ≠ 0 from env.base_pos)]
    rfl
  unfold malloc
  rw [if_neg nonzero, bind_runs here, bind_runs there]

end More

section Runs
variable {env : Env} {s t : Program} {l : List Nat} {call : HeapCall}

/-- The heap of a program that has not called `malloc`, and its life. -/
def heapSystem (env : Env) : System Program HeapCall where
  init s := s.heap.freep = 0 ∧ s.heap.regions = [] ∧ s.live = []
  step s call := if call.enabled s then (call.run env s).toOption else none

/-- Requests fit an `int`, and `sbrk` fails or returns memory above the rest. -/
def HeapCall.Fits (env : Env) (s : Program) : HeapCall → Prop
  | malloc nbytes => Small nbytes ∧ env.Rises s.heap (wanted nbytes)
  | _ => True

instance (env : Env) (s : Program) (call : HeapCall) : Decidable (call.Fits env s) :=
  match call with
  | .malloc _ => inferInstanceAs (Decidable (_ < _ ∧ (_ → _)))
  | .free _ | .write .. => isTrue trivial

/-- The ring of the free blocks is `l`; these and the blocks in use tile the memory from `sbrk`, and
each block in use has the bytes asked for behind its header. -/
structure Program.Whole (env : Env) (s : Program) (l : List Nat) : Prop where
  frees : s.heap.Frees env.base l
  tiled : s.heap.Tiled env.base (l ++ s.live.map Prod.fst)
  start : s.heap.freep ∈ env.base :: l
  sized : ∀ b ∈ s.live, b.2.toNat + 16 ≤ 16 * (s.heap.hdr b.1).size

/-- What holds at all times: nothing was asked for, or the heap is whole. -/
def Program.Kept (env : Env) (s : Program) : Prop := (heapSystem env).init s ∨ ∃ l, s.Whole env l

/-- Freeing `NULL`. -/
theorem HeapCall.free_null (env : Env) (s : Program) : (HeapCall.free 0).run env s = .ok s := by
  have all : s.live.filter (fun b => b.1 + 16 ≠ 0) = s.live := List.filter_eq_self.2 fun b _ => by simp
  have run : Usr.free env 0 s.heap = .ok ((), s.heap) := by
    rw [Usr.free, if_pos rfl]
    rfl
  rw [HeapCall.run, run, Except.map, all]

/-- The block that was taken is in use. -/
theorem Program.Whole.took {nbytes : BitVec 64} {h : Heap} {q : Nat} (w : s.Whole env l)
    (took : Took env s.heap h (units nbytes) q (s.live.map Prod.fst)) (rounds : Rounds nbytes) :
    ∃ l', Program.Whole env { heap := h, live := (q, nbytes) :: s.live } l' := by
  obtain ⟨⟨l', frees, tiled, start⟩, size, others⟩ := took
  refine ⟨l', frees, tiled, start, List.forall_mem_cons.2 ⟨?_, fun b mem => ?_⟩⟩
  · rw [size]
    exact rounds.units_enough
  · rw [others b.1 (List.mem_map_of_mem mem)]
    exact w.sized b mem

/-- `malloc` on a ring. -/
theorem Program.Whole.malloc_ok {nbytes : BitVec 64} (w : s.Whole env l) (fits : (HeapCall.malloc nbytes).Fits env s) :
    ∃ t, (HeapCall.malloc nbytes).run env s = .ok t ∧ ∃ l', t.Whole env l' := by
  rcases eq_or_ne nbytes 0 with rfl | nonzero
  · refine ⟨s, ?_, l, w⟩
    rw [HeapCall.run, malloc, if_pos rfl]
    rfl
  · obtain ⟨small, rises⟩ := fits
    obtain ⟨r, h, run, result⟩ := w.frees.malloc_ok w.tiled w.start rises small nonzero
    have after : (HeapCall.malloc nbytes).run env s =
        .ok { heap := h, live := if r = 0 then s.live else (r - 16, nbytes) :: s.live } := by
      rw [HeapCall.run, run]
      rfl
    refine ⟨_, after, ?_⟩
    rcases result with ⟨rfl, ⟨l', frees, tiled, start⟩, others⟩ | ⟨q, rfl, took⟩
    · refine ⟨l', frees, tiled, start, fun b mem => ?_⟩
      rw [others b.1 (List.mem_map_of_mem mem)]
      exact w.sized b mem
    · rw [if_neg (by omega), Nat.add_sub_cancel]
      exact w.took took small.rounds

/-- `free` of a block in use. -/
theorem Program.Whole.free_ok {b : Nat × BitVec 64} (w : s.Whole env l) (mem : b ∈ s.live) :
    ∃ t, (HeapCall.free (b.1 + 16)).run env s = .ok t ∧ ∃ l', t.Whole env l' := by
  have nodup : (s.live.map Prod.fst).Nodup := (List.nodup_append.1 w.tiled.nodup).2.1
  have rest : (s.live.filter fun c => c.1 + 16 ≠ b.1 + 16).map Prod.fst = (s.live.map Prod.fst).erase b.1 := by
    rw [nodup.erase_eq_filter, List.filter_map]
    refine congrArg (List.map Prod.fst) (List.filter_congr fun c _ => ?_)
    simp [bne, beq_eq_decide]
  have order : (l ++ s.live.map Prod.fst).Perm (b.1 :: l ++ (s.live.filter fun c => c.1 + 16 ≠ b.1 + 16).map Prod.fst) := by
    rw [rest]
    exact ((List.perm_cons_erase (List.mem_map_of_mem mem)).append_left l).trans List.perm_middle
  obtain ⟨h, l', run, frees, tiled, start, -, others, -⟩ := w.frees.free_ok (w.tiled.perm order) w.start
  refine ⟨{ heap := h, live := s.live.filter fun c => c.1 + 16 ≠ b.1 + 16 }, ?_, l', frees, tiled, start, fun c mem' => ?_⟩
  · rw [HeapCall.run, run]
    rfl
  · rw [others c.1 (List.mem_map_of_mem mem')]
    exact w.sized c (List.mem_of_mem_filter mem')

/-- A program stores inside its blocks. -/
theorem Program.Whole.write_ok {a : Nat} (w : s.Whole env l) (inside : s.Inside a) (h : Memhdr) :
    Program.Whole env { s with heap := s.heap.put a h } l := by
  obtain ⟨b, mem, low, high⟩ := inside
  have block : b.1 ∈ l ++ s.live.map Prod.fst := List.mem_append_right l (List.mem_map_of_mem mem)
  have above := w.tiled.base_lt block
  have out := w.tiled.not_inside block (by omega) high
  have out' : a ∉ env.base :: l := by
    intro mem
    rcases List.mem_cons.1 mem with rfl | mem
    · omega
    · exact out (List.mem_append_left _ mem)
  refine ⟨w.frees.put_outside out' h, w.tiled.put_outside out h, w.start, fun c mem => ?_⟩
  rw [s.heap.put_ne h]
  · exact w.sized c mem
  · rintro rfl
    exact out (List.mem_append_right l (List.mem_map_of_mem mem))

/-- **One call.** It returns, and the heap stays whole. -/
theorem HeapCall.run_ok (kept : s.Kept env) (on : call.enabled s) (fits : call.Fits env s) : ∃ t, call.run env s = .ok t ∧ t.Kept env := by
  rcases kept with start | ⟨l, w⟩
  · obtain ⟨none, regions, live⟩ := start
    cases call with
    | malloc nbytes =>
      rcases eq_or_ne nbytes 0 with rfl | nonzero
      · refine ⟨s, ?_, .inl ⟨none, regions, live⟩⟩
        rw [HeapCall.run, Usr.malloc, if_pos rfl]
        rfl
      · -- as on the ring of `base` alone
        let h : Heap := { s.heap with freep := env.base }.put env.base { ptr := env.base, size := 0 }
        let u : Program := { s with heap := h }
        have first : h.hdr env.base = { ptr := env.base, size := 0 } := Heap.put_self _ _ _
        have w : u.Whole env [] := by
          refine ⟨⟨(congrArg Memhdr.ptr first :), List.pairwise_singleton _ _, (congrArg Memhdr.size first :)⟩, ⟨?_, ?_⟩,
            List.mem_cons_self, ?_⟩
          · show Tiles s.heap.regions _
            rw [regions, live]
            exact Tiles.nil
          · show ∀ r ∈ s.heap.regions, _
            rw [regions]
            nofun
          · show ∀ b ∈ s.live, _
            rw [live]
            nofun
        obtain ⟨t, run, w'⟩ := w.malloc_ok fits
        refine ⟨t, ?_, .inr w'⟩
        rw [← run, HeapCall.run, HeapCall.run, malloc_first env none nonzero]
    | free ptr =>
      rcases on with rfl | ⟨b, mem, -⟩
      · exact ⟨s, free_null env s, .inl ⟨none, regions, live⟩⟩
      · rw [live] at mem
        cases mem
    | write a h =>
      obtain ⟨b, mem, -⟩ := on
      rw [live] at mem
      cases mem
  · cases call with
    | malloc nbytes =>
      obtain ⟨t, run, w'⟩ := w.malloc_ok fits
      exact ⟨t, run, .inr w'⟩
    | free ptr =>
      rcases on with rfl | ⟨b, mem, rfl⟩
      · exact ⟨s, free_null env s, .inr ⟨l, w⟩⟩
      · obtain ⟨t, run, w'⟩ := w.free_ok mem
        exact ⟨t, run, .inr w'⟩
    | write a h => exact ⟨_, rfl, .inr ⟨l, w.write_ok on h⟩⟩

/-- What holds in every run. -/
theorem heap_kept (run : (heapSystem env).Via (HeapCall.Fits env) s) : s.Kept env := by
  apply run.invariant (fun s start => .inl start)
  intro s call t kept fits step
  unfold heapSystem at step
  dsimp only at step
  split at step
  · rename_i on
    obtain ⟨u, ok, kept'⟩ := HeapCall.run_ok kept on fits
    rw [ok] at step
    cases step
    exact kept'
  · cases step

/-- The free blocks and those in use, also before the first call. -/
theorem Program.Kept.shape (kept : s.Kept env) :
    ∃ l, (s.heap.freep = 0 ∧ l = [] ∨ s.heap.freep ∈ env.base :: l ∧ Path s.heap.next env.base l env.base) ∧
      ((env.base :: l).Pairwise fun a b => a + 16 * (s.heap.hdr a).size < b) ∧
      Tiles s.heap.regions ((l ++ s.live.map Prod.fst).map s.heap.span) ∧
      ∀ b ∈ s.live, b.2.toNat + 16 ≤ 16 * (s.heap.hdr b.1).size := by
  rcases kept with ⟨none, regions, live⟩ | ⟨l, w⟩
  · refine ⟨[], .inl ⟨none, rfl⟩, List.pairwise_singleton _ _, ?_, ?_⟩
    · rw [regions, live]
      exact Tiles.nil
    · rw [live]
      nofun
  · exact ⟨l, .inr ⟨w.start, w.frees.ring⟩, w.frees.apart, w.tiled.tiles, w.sized⟩

/-- **The heap.** Each block in use has the bytes asked for, lies in memory from `sbrk`, and overlaps
no other one and no free one; the free blocks make a ring in the order of their addresses, in
which no two touch; free blocks and blocks in use together are as long as the memory from `sbrk`;
and every call returns. -/
theorem heap_right (env : Env) (s : Program) (run : (heapSystem env).Via (HeapCall.Fits env) s) :
    (∀ b ∈ s.live, b.2.toNat + 16 ≤ 16 * (s.heap.hdr b.1).size ∧
      ∀ x, (s.heap.span b.1).Has x → ∃ r ∈ s.heap.regions, Span.Has r x) ∧
    (s.live.map fun b => s.heap.span b.1).Pairwise Span.Apart ∧
    (∃ free, (s.heap.freep = 0 ∧ free = [] ∨ s.heap.freep ∈ env.base :: free ∧ Path s.heap.next env.base free env.base) ∧
      ((env.base :: free).Pairwise fun a b => a + 16 * (s.heap.hdr a).size < b) ∧
      (∀ b ∈ s.live, ∀ a ∈ free, (s.heap.span b.1).Apart (s.heap.span a)) ∧
      16 * ((free.map fun a => (s.heap.hdr a).size).sum + (s.live.map fun b => (s.heap.hdr b.1).size).sum) = s.heap.total) ∧
    ∀ call : HeapCall, call.enabled s → call.Fits env s → ∃ t, call.run env s = .ok t := by
  have kept := heap_kept run
  obtain ⟨l, ring, order, tiles, sized⟩ := kept.shape
  have live : ∀ b ∈ s.live, s.heap.span b.1 ∈ (l ++ s.live.map Prod.fst).map s.heap.span := fun b mem =>
    List.mem_map_of_mem (List.mem_append_right l (List.mem_map_of_mem mem))
  have apart := tiles.apart
  have total := tiles.total
  rw [List.map_append, List.map_map] at apart total
  obtain ⟨-, uses, across⟩ := List.pairwise_append.1 apart
  refine ⟨fun b mem => ⟨sized b mem, tiles.inside _ (live b mem)⟩, uses, ⟨l, ring, order, fun b mem a mem' => ?_, ?_⟩,
    fun call on fits => (HeapCall.run_ok kept on fits).imp fun t done => done.1⟩
  · exact (across _ (List.mem_map_of_mem mem') _ (List.mem_map.2 ⟨b, mem, rfl⟩)).symm
  · rw [List.map_append, List.sum_append, List.map_map, List.map_map] at total
    unfold Heap.total
    rw [← total, Nat.mul_add, ← List.sum_map_mul_left, ← List.sum_map_mul_left]
    rfl

end Runs

section Example

/-- `sbrk` in steps of 64 KiB, until the third call. -/
def stepwise : Env where
  base := 0x800
  sbrk k _ := if k < 2 then 0x10000 * (k + 1) else 0
  base_pos := by decide

/-- A heap before the first call. -/
def fresh : Program where
  heap := { hdr := fun _ => { ptr := 0, size := 0 }, freep := 0, regions := [], calls := 0 }
  live := []

/-- Blocks are taken, written to and freed, one beside another; one needs more memory, and for one
there is none. -/
def someCalls : List HeapCall :=
  [.malloc 1, .malloc 100, .write 0x11f90 { ptr := 0, size := 9 }, .malloc 32, .free 0x11ff0, .malloc 9000, .free 0x11f70, .malloc 30000]

/-- They leave two blocks in use, for these requests. -/
theorem heap_right_someCalls : ∃ s, (heapSystem stepwise).runIf (HeapCall.Fits stepwise) fresh someCalls = some s ∧
    s.live = [(0x20000, 9000), (0x11f30, 32)] ∧
    (∀ b ∈ s.live, b.2.toNat + 16 ≤ 16 * (s.heap.hdr b.1).size ∧ ∀ x, (s.heap.span b.1).Has x → ∃ r ∈ s.heap.regions, Span.Has r x) ∧
    (s.live.map fun b => s.heap.span b.1).Pairwise Span.Apart := by
  have ran : ((heapSystem stepwise).runIf (HeapCall.Fits stepwise) fresh someCalls).map Program.live =
      some [(0x20000, 9000), (0x11f30, 32)] := by decide +kernel
  obtain ⟨s, run, live⟩ := Option.map_eq_some_iff.1 ran
  obtain ⟨uses, apart, -⟩ := heap_right stepwise s (.runIf (.init ⟨rfl, rfl, rfl⟩) run)
  exact ⟨s, run, live, uses, apart⟩

end Example

end Aarch64Os.Usr
