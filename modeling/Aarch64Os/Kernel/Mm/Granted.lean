import Aarch64Os.Kernel.Mm.Attributes
import Aarch64Os.Kernel.Mm.PageNames

/-!
# What `sbrk` grants (`kernel/proc.c`, `kernel/mm.c`)

A process that maps what its size says grows when the free list has the pages for it, with the tables
that are missing on the way. When a page is missing the lock of the allocator stays held, and no call
that takes one comes back.
-/

namespace Aarch64Os.Kernel
set_option autoImplicit false
open Base

section Enough
variable {t : PageTable} {mapped : Nat → Prop} {s : Kallocator} {n size newsz b : Nat}

/-- A page is mapped, where there are pages for the tables that are missing. -/
theorem pagemap_grows (maps : t.Maps mapped) (lt : n < 2 ^ 27) (new : ¬ mapped n) (page : PageNo) (attr : BitVec 64)
    (free : s.held = false) (enough : t.missing (n * PAGESIZE) ≤ s.free) :
    Returns (pagemap t (n * PAGESIZE) (page * PAGESIZE) PAGESIZE attr) s fun t' u => (t'.Maps fun m => m = n ∨ mapped m) ∧
      u.free + t.missing (n * PAGESIZE) = s.free ∧ t'.missing = touch t.missing (n * PAGESIZE) ∧ u.held = false := by
  have clear : t.pte (n * PAGESIZE) = none := by
    simpa using mt (maps n lt).1 new
  have returns : Returns (pagemap t (n * PAGESIZE) (page * PAGESIZE) PAGESIZE attr) s fun _ _ => True := pagemap_returns free clear enough
  have ends := returns.and_after (pagemap_ends maps lt new page attr s).1
  refine (ends.and_after (pagemap_lock t _ _ attr free)).mono ?_
  rintro t' u ⟨⟨-, maps', -, used, missing⟩, lock⟩
  exact ⟨maps', used, missing, lock⟩

/-- So are those of a loop. -/
theorem allocPages_returns (attr : BitVec 64) (size left : Nat) : ∀ {t : PageTable} {mapped : Nat → Prop} {a b : Nat} {s : Kallocator},
    t.Maps mapped → (∀ n, a ≤ n → n < a + s.free → ¬ mapped n) → a + s.free < 2 ^ 27 → b + s.free < 2 ^ 50 → s.held = false →
    need t.missing (rounds b size) (a * PAGESIZE) ≤ s.free → rounds b size < left →
    Returns (allocPages attr size left t (a * PAGESIZE) (b * PAGESIZE)) s fun r _ => r.1 = true := by
  induction left with
  | zero => exact fun _ _ _ _ _ _ fuel => absurd fuel (Nat.not_lt_zero _)
  | succ left ih =>
    intro t mapped a b s maps new low low' free enough fuel
    unfold allocPages
    split
    case isFalse => exact Returns.pure rfl
    case isTrue more =>
    rw [rounds_more more, need, next_page (by omega)] at enough
    rw [rounds_more more] at fuel
    apply (((kalloc_returns free).and_after (kalloc_ends s).1).and_after (kalloc_lock s)).bind
    rintro upage s' ⟨⟨-, taken, full⟩, lock⟩
    cases upage with
    | none =>
      have zero := full.1 rfl
      omega
    | some upage =>
      simp only [Option.elim_some] at taken
      apply (pagemap_grows maps (by omega) (new a le_rfl (by omega)) upage attr lock (by omega)).bind
      rintro t' u ⟨maps', used, missing, lock'⟩
      rw [next_page (by omega), next_page (by omega)]
      refine ih maps' ?_ (by omega) (by omega) lock' ?_ (by omega)
      · rintro n ge lt (rfl | h)
        · omega
        · exact new n (by omega) (by omega) h
      · rw [missing]
        omega

theorem le_need (missing : Nat → Nat) (count : Nat) : ∀ va, count ≤ need missing count va := by
  induction count generalizing missing with
  | zero => exact fun _ => Nat.zero_le _
  | succ count ih =>
    intro va
    have rest := ih (touch missing va) ((va + PAGESIZE) % U64)
    rw [need]
    omega

/-- `grow_userspace` where the free list has what it takes. -/
theorem growUserspace_returns (whole : PAGEROUNDUP size = b * PAGESIZE) (image : t.Maps (Image b)) (few : s.free + b ≤ 2 ^ 16)
    (free : s.held = false) (enough : need t.missing (rounds b newsz) (0x1000 + b * PAGESIZE) ≤ s.free) :
    Returns (growUserspace t 0x1000 size newsz) s fun g _ => g.1 = some ((0x1000 + size) % U64) := by
  have top : 2 ^ 16 + 1 < STACKPAGE := by decide
  have top' : STACKPAGE < 2 ^ 27 := by decide
  have start : 0x1000 + b * PAGESIZE = (1 + b) * PAGESIZE := by rw [Nat.add_mul, Nat.one_mul]
  have new : ∀ n, 1 + b ≤ n → n < 1 + b + s.free → ¬ Image b n := by
    rintro n ge lt (⟨-, lt'⟩ | rfl) <;> omega
  have count := (le_need t.missing (rounds b newsz) (0x1000 + b * PAGESIZE)).trans enough
  rw [start] at enough
  unfold growUserspace
  dsimp only
  apply Returns.step (get_runs s)
  rw [whole, start, Nat.mod_eq_of_lt (by simp only [PAGESIZE, U64]; omega)]
  apply (allocPages_returns _ newsz (s.free + 1) image new (by omega) (by omega) free enough (by omega)).bind
  rintro ⟨done, t'⟩ u ended
  obtain rfl : done = true := ended
  exact Returns.pure rfl

/-- It needs no page. -/
theorem growUserspace_stays (ending : ¬ PAGEROUNDUP size < newsz) (t : PageTable) (s : Kallocator) :
    growUserspace t 0x1000 size newsz s = .ok ((some ((0x1000 + size) % U64), t), s) := by
  unfold growUserspace
  dsimp only
  rw [bind_runs (get_runs s), allocPages, if_neg ending]
  rfl

/-- The lock is held, and it needs one. -/
theorem growUserspace_held (held : s.held = true) (more : PAGEROUNDUP size < newsz) (t : PageTable) :
    growUserspace t 0x1000 size newsz s = .error (.panic "already held") := by
  unfold growUserspace
  dsimp only
  rw [bind_runs (get_runs s), allocPages, if_pos more]
  exact fail_bind.2 (.inl (fail_bind.2 (.inl (kalloc_held held))))

end Enough

/-- An address of a process is mapped. -/
def UserProc.Backs (q : UserProc) (x : Nat) : Prop := ∃ pgt ∈ q.pgt, (PageTable.pte pgt x).isSome

/-- The process takes no page when it grows, or the free list has all it takes. -/
def Spaces.CanGrow (s : Spaces) (p : ProcId) (incr : BitVec 32) : Prop :=
  let q := s.procs p
  let newsz := sizePlus q.size incr
  newsz ≤ PAGEROUNDUP q.size ∨ s.kmem.held = false ∧ ∀ pgt ∈ q.pgt,
    need pgt.missing (rounds (PAGEROUNDUP q.size / PAGESIZE) newsz) (0x1000 + PAGEROUNDUP q.size) ≤ s.kmem.free

/-- A process that maps what its size says, unless an allocation has failed. -/
structure Spaces.Sized (s : Spaces) (p : ProcId) : Prop where
  few : s.kmem.free + (s.procs p).pages ≤ bootPages
  small : (s.procs p).size ≤ 2 ^ 32
  table : (s.procs p).pgt.isSome
  image : s.kmem.held = false → (s.procs p).Right

section Answers
variable {s : Spaces} {p : ProcId} {incr : BitVec 32}

theorem onKmem_returns {α : Type} {f : MmM α} {post : α → Kallocator → Prop} (h : Returns f s.kmem post) :
    Returns (onKmem f) s fun a t => post a t.kmem ∧ t = { s with kmem := t.kmem } := by
  obtain ⟨a, u, run, given⟩ := h
  refine ⟨a, { s with kmem := u }, ?_, given, rfl⟩
  unfold onKmem
  rw [run]
  rfl

/-- Its table, and the pages of its size. -/
theorem Spaces.Sized.pages (h : s.Sized p) (free : s.kmem.held = false) : ∃ pgt b, (s.procs p).pgt = some pgt ∧
    PAGEROUNDUP (s.procs p).size = b * PAGESIZE ∧ pgt.Maps (Image b) ∧ s.kmem.free + pgt.pages ≤ bootPages ∧ b ≤ pgt.pages := by
  obtain ⟨pgt, has, image, long, -⟩ := h.image free
  have few := h.few
  refine ⟨pgt, _, has, (PAGEROUNDUP_pages _).symm, image, ?_, long⟩
  simp only [UserProc.pages, has, Option.elim_some] at few
  omega

theorem Spaces.Sized.low (h : s.Sized p) (free : s.kmem.held = false) : (s.procs p).size ≤ 2 ^ 28 := by
  obtain ⟨pgt, b, -, whole, -, few, long⟩ := h.pages free
  have small := h.small
  simp only [bootPages] at few
  apply size_le_memory (by omega)
  rw [whole, Nat.mul_div_cancel b (by decide)]
  omega

/-- An increment that is not positive. -/
theorem sbrk_shrinks (s : Spaces) (p : ProcId) (neg : ¬ 0 < incr.toInt) : sbrk p incr s =
    .ok (none, { s with procs := Function.update s.procs p { s.procs p with size := sizePlus (s.procs p).size incr } }) := by
  unfold sbrk
  rw [bind_runs (get_runs s)]
  dsimp only
  rw [if_neg neg]
  rfl

/-- `sbrk` where the process can grow. -/
theorem Spaces.Sized.sbrk_returns (h : s.Sized p) (pos : 0 < incr.toInt) (can : s.CanGrow p incr) :
    Returns (sbrk p incr) s fun start _ => start = some (0x1000 + (s.procs p).size) := by
  obtain ⟨pgt, has⟩ := Option.isSome_iff_exists.1 h.table
  have small := h.small
  have start : (0x1000 + (s.procs p).size) % U64 = 0x1000 + (s.procs p).size := Nat.mod_eq_of_lt (by simp only [U64]; omega)
  have grows : Returns (growUserspace pgt 0x1000 (s.procs p).size (sizePlus (s.procs p).size incr)) s.kmem fun g _ =>
      g.1 = some ((0x1000 + (s.procs p).size) % U64) := by
    rcases can with stays | ⟨free, enough⟩
    · exact ⟨_, _, growUserspace_stays (not_lt.2 stays) pgt s.kmem, rfl⟩
    · obtain ⟨pgt', b, has', whole, image, few, long⟩ := h.pages free
      obtain rfl : pgt = pgt' := Option.some.inj (has.symm.trans has')
      have enough := enough pgt has
      rw [whole, Nat.mul_div_cancel b (by decide)] at enough
      simp only [bootPages] at few
      exact growUserspace_returns whole image (by omega) free enough
  unfold sbrk
  apply Returns.step (get_runs s)
  dsimp only
  rw [if_pos pos]
  apply Returns.step (pgtOf_runs has)
  apply (onKmem_returns grows).bind
  rintro ⟨g, pgt'⟩ t ⟨same, -⟩
  apply Returns.step (setProc_runs ..)
  exact Returns.pure (same.trans (congrArg some start))

/-- **What `sbrk` leaves** with a positive increment, unless it needs a page and cannot take the lock: memory
that is mapped, behind what the process had, or nothing where the process cannot grow. -/
theorem Spaces.Sized.sbrk_after (h : s.Sized p) (pos : 0 < incr.toInt)
    (takes : s.kmem.held = true → PAGEROUNDUP (s.procs p).size < sizePlus (s.procs p).size incr) :
    After (sbrk p incr) s fun start t => t.Sized p ∧ (t.procs p).size = (s.procs p).size + incr.toNat ∧
      (∀ x, (s.procs p).Backs x → (t.procs p).Backs x) ∧
      (start = none ∨ s.CanGrow p incr ∧ start = some (0x1000 + (s.procs p).size) ∧
        ∀ x, 0x1000 + (s.procs p).size ≤ x → x < 0x1000 + (s.procs p).size + incr.toNat → (t.procs p).Backs x) := by
  obtain ⟨pgt, has⟩ := Option.isSome_iff_exists.1 h.table
  have small := h.small
  have bits : incr.toNat < 2 ^ 31 ∧ 0 < incr.toNat := by
    have cond := BitVec.toInt_eq_toNat_cond incr
    split at cond
    · omega
    · have lt := incr.isLt
      omega
  have plus : sizePlus (s.procs p).size incr = (s.procs p).size + incr.toNat := sizePlus_eq (by omega) pos
  have kept : After (sbrk p incr) s fun _ t => ∀ x, (s.procs p).Backs x → (t.procs p).Backs x := by
    refine (sbrk_adds has incr).mono ?_
    rintro _ t ⟨r, pgt', procs, own, adds⟩ x ⟨pgt'', mine, there⟩
    obtain rfl : pgt = pgt'' := Option.some.inj (has.symm.trans mine)
    rw [procs, Function.update_self]
    exact ⟨pgt', own, adds.isSome there⟩
  have left : After (sbrk p incr) s fun start t => t.Sized p ∧ (t.procs p).size = (s.procs p).size + incr.toNat ∧
      (start = none ∨ s.CanGrow p incr ∧ start = some (0x1000 + (s.procs p).size) ∧
        ∀ x, 0x1000 + (s.procs p).size ≤ x → x < 0x1000 + (s.procs p).size + incr.toNat → (t.procs p).Backs x) := by
    unfold sbrk
    refine After.step (get_runs s) ?_
    dsimp only
    rw [if_pos pos]
    refine After.step (pgtOf_runs has) ?_
    cases held : s.kmem.held with
    | true =>
      intro start t run
      obtain ⟨g, u, grown, -⟩ := run_bind.1 run
      unfold onKmem at grown
      rw [growUserspace_held held (takes held)] at grown
      cases grown
    | false =>
    have low := h.low held
    obtain ⟨pgt', b, has', whole, image, few, long⟩ := h.pages held
    obtain rfl : pgt = pgt' := Option.some.inj (has.symm.trans has')
    simp only [bootPages] at few
    have above : b = 0 ∨ (b - 1) * PAGESIZE < sizePlus (s.procs p).size incr := by
      rcases PAGEROUNDUP_bounds (by simp only [U64]; omega) whole with zero | ⟨most, least⟩
      · exact .inl zero
      · exact .inr (least.trans (by omega))
    have grows := (growUserspace_exact s.kmem whole image (by omega) above).and (growUserspace_ends s.kmem whole image (by omega)).1
    refine (onKmem_after grows).bind ?_
    rintro ⟨g, pgt''⟩ t ⟨⟨⟨total, more, ended⟩, -, k, few', -, maps, -, fits, -⟩, same⟩
    simp only at total more ended maps
    rw [same]
    have room := h.few
    refine After.step (setProc_runs ..) (After.pure ?_)
    simp only [Function.update_self]
    have right : ∀ k' ≤ s.kmem.free, pgt''.Maps (Image (b + k')) → PAGEROUNDUP (sizePlus (s.procs p).size incr) = (b + k') * PAGESIZE →
        pgt.pages + k' ≤ pgt''.pages →
        UserProc.Right { s.procs p with pgt := some pgt'', size := sizePlus (s.procs p).size incr } := by
      intro k' le maps' round grown
      refine ⟨pgt'', rfl, ?_, ?_, sizePlus_lt _ _⟩
      · rw [round, Nat.mul_div_cancel _ (by decide)]
        exact maps'
      · rw [round, Nat.mul_div_cancel _ (by decide)]
        omega
    refine ⟨⟨?_, by simp only [Function.update_self]; omega, by simp only [Function.update_self]; rfl, ?_⟩, plus, ?_⟩
    · simp only [UserProc.pages, has, Option.elim_some, Function.update_self] at room ⊢
      omega
    · intro free
      rcases ended with ⟨-, lock⟩ | ⟨-, k', le, maps', round, grown⟩
      · rw [lock] at free
        cases free
      · simp only [Function.update_self]
        exact right k' le maps' round grown
    · rcases ended with ⟨rfl, -⟩ | ⟨rfl, k', le, maps', round, grown⟩
      · exact .inl rfl
      · have last : sizePlus (s.procs p).size incr ≤ PAGEROUNDUP (sizePlus (s.procs p).size incr) := le_PAGEROUNDUP (by omega)
        have count := maps.image_inj maps' (by omega)
        refine .inr ⟨.inr ⟨held, fun pgt' has' => ?_⟩, congrArg some (Nat.mod_eq_of_lt (by simp only [U64]; omega)), ?_⟩
        · obtain rfl : pgt = pgt' := Option.some.inj (has.symm.trans has')
          rw [whole, Nat.mul_div_cancel b (by decide)]
          rw [round, ← count, Nat.add_mul] at last
          exact fits.1 last
        · intro x ge lt
          obtain ⟨own, mine, mapped⟩ := (right k' le maps' round grown).mapsSize
          refine ⟨own, mine, (mapped x (by omega)).2 (.inl ⟨by omega, ?_⟩)⟩
          simp only
          omega
  exact (left.and kept).mono fun start t given => ⟨given.1.1, given.1.2.1, given.2, given.1.2.2⟩

end Answers

end Aarch64Os.Kernel
