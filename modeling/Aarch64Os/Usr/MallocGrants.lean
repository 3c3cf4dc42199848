import Aarch64Os.Kernel.Mm.Granted
import Aarch64Os.Usr.MallocRight

/-!
# The user heap over the kernel (`usr/malloc.c`, `kernel/proc.c`)

The memory of the heap is what `sbrk` grants. `malloc` counts in units of 64 bits, and asks for bytes in an
`int`: what a block says of its length is true where the two are the same number.
-/

namespace Aarch64Os.Usr
set_option autoImplicit false
open Base

section Calls
variable {α β : Type} {env : Env} {f : HeapM α} {g : α → HeapM β}

/-- No call of `sbrk` is taken back. -/
def Rising (f : HeapM α) : Prop := ∀ s, After f s fun _ t => s.calls ≤ t.calls

theorem Alone.rising (alone : Alone f) : Rising f := fun s => (alone s).mono fun _ _ same => same.2.ge

theorem Rising.bind (first : Rising f) (second : ∀ a, Rising (g a)) : Rising (f >>= g) := by
  intro s
  refine (first s).bind ?_
  intro a t le
  exact (second a t).mono fun _ _ le' => le.trans le'

/-- `morecore` has called `sbrk`. -/
theorem morecore_calls (nunits : Nat) (s : Heap) : After (morecore env nunits) s fun _ t => s.calls + 1 ≤ t.calls := by
  unfold morecore
  have called : ∀ incr, After (sbrk env incr) s fun _ t => t.calls = s.calls + 1 := by
    intro incr up t run
    cases run
    rfl
  dsimp only
  refine (called _).bind ?_
  intro up t same
  rw [← same]
  split
  · exact After.pure le_rfl
  · have rest : Rising (do
        let h ← load env up
        store env up { h with size := if MINALLOC > nunits then MINALLOC else nunits }
        free env (up + 16)
        let s ← get
        Pure.pure s.freep) := by
      refine Alone.rising ((load_alone up).bind fun h => (store_alone up _).bind fun _ => ?_)
      exact (free_alone _).bind fun _ => get_alone.bind fun s => .pure _
    exact rest t

theorem mallocFrom_rising (nunits left : Nat) : ∀ prev p, Rising (mallocFrom env nunits left prev p) := by
  induction left with
  | zero => exact fun _ _ _ => After.throw _
  | succ left ih =>
    intro prev p
    apply (load_alone p).rising.bind
    intro h
    split
    · exact (takeBlock_alone nunits prev p h).rising
    · apply get_alone.rising.bind
      intro s
      split
      · have more : Rising (morecore env nunits) := fun s => (morecore_calls nunits s).mono fun _ _ le => by omega
        apply more.bind
        intro q
        split
        · exact (Alone.pure 0).rising
        · exact (load_alone q).rising.bind fun h => ih q h.ptr
      · exact ih p h.ptr

end Calls

section Blocks
variable {env : Env} {s : Heap} {n : Nat} {nbytes : BitVec 64} {l live : List Nat}

/-- One of the free blocks has `n` units. -/
def Heap.HasBlock (s : Heap) (n : Nat) : Prop := s.freep ≠ 0 ∧ ∃ k, n ≤ (s.hdr (s.next^[k] s.freep)).size

theorem Heap.Frees.hasBlock_iff (h : s.Frees env.base l) (start : s.freep ∈ env.base :: l) (pointer : s.freep ≠ 0) (some : 0 < n) :
    s.HasBlock n ↔ ∃ a ∈ l, n ≤ (s.hdr a).size := by
  constructor
  · rintro ⟨-, k, fits⟩
    rcases List.mem_cons.1 (h.ring.iterate_mem start k) with same | mem
    · rw [same, h.sentinel] at fits
      omega
    · exact ⟨_, mem, fits⟩
  · rintro ⟨a, mem, fits⟩
    obtain ⟨us, round, perm⟩ := h.ring.enter start
    obtain ⟨k, there⟩ := round.iterate (perm.mem_iff.2 (List.mem_cons_of_mem _ mem))
    exact ⟨pointer, k, there ▸ fits⟩

/-- Where no free block is long enough, `malloc` calls `sbrk`. -/
theorem Heap.Frees.malloc_calls (h : s.Frees env.base l) (tiled : s.Tiled env.base (l ++ live)) (start : s.freep ∈ env.base :: l)
    (nonzero : nbytes ≠ 0) (small : ∀ a ∈ l, (s.hdr a).size < units nbytes) :
    After (malloc env nbytes) s fun _ t => s.calls + 1 ≤ t.calls := by
  obtain ⟨left, -, asks⟩ := h.malloc_asks tiled start nonzero small
  have after : After (do
      let p ← morecore env (units nbytes)
      if p = 0 then pure 0
      else
        let h ← load env p
        mallocFrom env (units nbytes) left p h.ptr) s fun _ t => s.calls + 1 ≤ t.calls := by
    refine (morecore_calls _ s).bind ?_
    intro p u le
    split
    · exact After.pure le
    · have rest : Rising (load env p >>= fun h => mallocFrom env (units nbytes) left p h.ptr) :=
        (load_alone p).rising.bind fun h => mallocFrom_rising _ left p h.ptr
      exact (rest u).mono fun _ _ le' => le.trans le'
  exact fun r t run => after r t (asks.symm.trans run)

/-- The ring that a call of `malloc` finds, or makes: a heap `u` that is like `s` to it. -/
structure Program.Rings (env : Env) (s : Program) (u : Heap) (l : List Nat) : Prop where
  whole : Program.Whole env { s with heap := u } l
  same : ∀ nbytes, nbytes ≠ 0 → malloc env nbytes s.heap = malloc env nbytes u
  regions : u.regions = s.heap.regions
  calls : u.calls = s.heap.calls
  block : ∀ n, 0 < n → (s.heap.HasBlock n ↔ ∃ a ∈ l, n ≤ (u.hdr a).size)

theorem Program.Rings.small {s : Program} {u : Heap} (rings : s.Rings env u l) (some : 0 < n) (none : ¬ s.heap.HasBlock n) :
    ∀ a ∈ l, (u.hdr a).size < n := by
  intro a mem
  by_contra fits
  exact none ((rings.block n some).2 ⟨a, mem, not_lt.1 fits⟩)

theorem Program.Kept.rings {s : Program} (kept : s.Kept env) : ∃ u l, s.Rings env u l := by
  rcases kept with ⟨none, regions, live⟩ | ⟨l, w⟩
  · have first : (({ s.heap with freep := env.base }.put env.base { ptr := env.base, size := 0 }).hdr env.base) = { ptr := env.base, size := 0 } :=
      Heap.put_self _ _ _
    refine ⟨_, [], ⟨⟨⟨(congrArg Memhdr.ptr first :), List.pairwise_singleton _ _, (congrArg Memhdr.size first :)⟩, ⟨?_, ?_⟩,
      List.mem_cons_self, ?_⟩, fun nbytes nonzero => malloc_first env none nonzero, rfl, rfl, ?_⟩⟩
    · show Tiles s.heap.regions _
      rw [regions, live]
      exact Tiles.nil
    · show ∀ r ∈ s.heap.regions, _
      rw [regions]
      nofun
    · show ∀ b ∈ s.live, _
      rw [live]
      nofun
    · intro n some
      constructor
      · exact fun block => absurd none block.1
      · rintro ⟨a, mem, -⟩
        cases mem
  · refine ⟨s.heap, l, w, fun _ _ => rfl, rfl, rfl, fun n some => w.frees.hasBlock_iff w.start ?_ some⟩
    have pos := env.base_pos
    rcases List.mem_cons.1 w.start with same | mem
    · omega
    · have above := w.tiled.base_lt (List.mem_append_left _ mem)
      omega

end Blocks

/-- A process: the kernel, and its heap. -/
structure Process where
  kernel : Kernel.Spaces
  program : Program

/-- The kernel after `k` calls of `sbrk`, unless it has stopped. -/
def kernelAfter (p : Kernel.ProcId) (incr : BitVec 32) : Nat → Kernel.Spaces → Option Kernel.Spaces
  | 0, s => some s
  | k + 1, s => (Kernel.sbrk p incr s).toOption.bind fun r => kernelAfter p incr k r.2

/-- What a call of `sbrk` returns, with 0 for `NULL`. A kernel that stops grants nothing. -/
def granted (p : Kernel.ProcId) (incr : BitVec 32) (s : Kernel.Spaces) : Nat := ((Kernel.sbrk p incr s).toOption.bind Prod.fst).getD 0

/-- What a call of the process does: on its heap, or `others` do something to the kernel. They leave its slot
alone, a lock that is held stays held, and there is no more memory than at boot. -/
inductive ProcessStep
  | heap (call : HeapCall)
  | others (kmem : Kernel.Kallocator) (procs : Kernel.ProcId → Kernel.UserProc) (nextpid : Int)

/-- What a call asks `sbrk` for, if it asks. -/
def HeapCall.asks : HeapCall → BitVec 32
  | malloc nbytes => asked nbytes
  | _ => 0

section Granted
variable {base : Nat} (base_pos : base ≠ 0) (p : Kernel.ProcId)

/-- The kernel answers the calls of `sbrk` one after another. -/
def Process.env (s : Process) : Env where
  base := base
  sbrk k incr := ((kernelAfter p (BitVec.ofInt 32 incr) (k - s.program.heap.calls) s.kernel).map (granted p (BitVec.ofInt 32 incr))).getD 0
  base_pos := base_pos

/-- A process with its image, in which `base` is, and with a heap that has not been used. -/
def processSystem : System Process ProcessStep where
  init s := s.kernel.Sized p ∧ s.kernel.kmem.held = false ∧ base + 16 ≤ 0x1000 + (s.kernel.procs p).size ∧
    s.program.heap.freep = 0 ∧ s.program.heap.regions = [] ∧ s.program.live = []
  step s
    | .heap call =>
      if call.enabled s.program then
        (call.run (s.env base_pos p) s.program).toOption.bind fun program =>
          (kernelAfter p call.asks (program.heap.calls - s.program.heap.calls) s.kernel).map fun kernel => ⟨kernel, program⟩
      else none
    | .others kmem procs nextpid =>
      if kmem.free + (s.kernel.procs p).pages ≤ Kernel.bootPages ∧ (s.kernel.kmem.held = true → kmem.held = true) then
        some { s with kernel := ⟨kmem, Function.update procs p (s.kernel.procs p), nextpid⟩ }
      else none

/-- `sbrk` grants what `malloc` asks for. -/
def Process.Grants (s : Process) (nbytes : BitVec 64) : Prop := 0 < (asked nbytes).toInt ∧ s.kernel.CanGrow p (asked nbytes)

/-- A request without bytes; or one that does not wrap around, for which there is a free block; or one for which
there is none, that is no negative number to `sbrk` and, if it is granted, is to `sbrk` what it is to `malloc`. -/
def Process.Fits (s : Process) (nbytes : BitVec 64) : Prop :=
  nbytes = 0 ∨ s.program.heap.HasBlock (units nbytes) ∧ Rounds nbytes ∨
    ¬ s.program.heap.HasBlock (units nbytes) ∧ 0 ≤ (asked nbytes).toInt ∧
      (s.Grants p nbytes → (asked nbytes).toInt = wanted nbytes ∧ Rounds nbytes)

/-- The condition on the steps: requests fit. -/
def ProcessStep.Fits (s : Process) : ProcessStep → Prop
  | heap (.malloc nbytes) => s.Fits p nbytes
  | _ => True

/-- What is asked of `malloc`. If it calls `sbrk`, it is not to shrink the process, nor to grant less than what the
block will say of its length. It returns `NULL`, or a block with the bytes, all of it in memory from `sbrk` that the
process has mapped. -/
def Process.MallocRight (s : Process) (nbytes : BitVec 64) : Prop :=
  ∃ r t, malloc (s.env base_pos p) nbytes s.program.heap = .ok (r, t) ∧
    (t.calls ≠ s.program.heap.calls → 0 ≤ (asked nbytes).toInt ∧
      (granted p (asked nbytes) s.kernel ≠ 0 → (wanted nbytes : Int) ≤ (asked nbytes).toInt)) ∧
    (r ≠ 0 → ∃ kernel, kernelAfter p (asked nbytes) (t.calls - s.program.heap.calls) s.kernel = some kernel ∧
      nbytes.toNat + 16 ≤ 16 * (t.hdr (r - 16)).size ∧
      ∀ x, (t.span (r - 16)).Has x → (∃ g ∈ t.regions, Span.Has g x) ∧ (kernel.procs p).Backs x)

/-- What a process keeps: the kernel maps what its size says, its heap is whole, and the memory of the heap is mapped
and below its size. -/
structure Process.Kept (s : Process) : Prop where
  sized : s.kernel.Sized p
  heap : s.program.Kept (s.env base_pos p)
  low : base + 16 ≤ 0x1000 + (s.kernel.procs p).size
  top : ∀ r ∈ s.program.heap.regions, r.1 + r.2 ≤ 0x1000 + (s.kernel.procs p).size
  backed : ∀ r ∈ s.program.heap.regions, ∀ x, Span.Has r x → (s.kernel.procs p).Backs x

end Granted

section Answers
variable {base : Nat} {base_pos : base ≠ 0} {p : Kernel.ProcId} {s : Process} {nbytes : BitVec 64} {incr : BitVec 32} {k : Kernel.Spaces}

/-- The first answer within a call. -/
theorem Process.env_first (base_pos : base ≠ 0) (p : Kernel.ProcId) (s : Process) (incr : BitVec 32) :
    (s.env base_pos p).sbrk s.program.heap.calls incr.toInt = granted p incr s.kernel := by
  unfold Process.env
  simp only [BitVec.ofInt_toInt, Nat.sub_self, kernelAfter, Option.map_some, Option.getD_some]

theorem granted_eq (sized : k.Sized p) (pos : 0 < incr.toInt) (can : k.CanGrow p incr) : granted p incr k = 0x1000 + (k.procs p).size := by
  obtain ⟨start, t, run, same⟩ := sized.sbrk_returns pos can
  rw [granted, run, same]
  rfl

theorem granted_zero (sized : k.Sized p) (cannot : ¬ (0 < incr.toInt ∧ k.CanGrow p incr)) : granted p incr k = 0 := by
  unfold granted
  by_cases pos : 0 < incr.toInt
  · have takes : k.kmem.held = true → Kernel.PAGEROUNDUP (k.procs p).size < Kernel.sizePlus (k.procs p).size incr := by
      intro held
      by_contra stays
      exact cannot ⟨pos, .inl (not_lt.1 stays)⟩
    cases run : Kernel.sbrk p incr k with
    | error e => rfl
    | ok r =>
      obtain ⟨start, t⟩ := r
      obtain ⟨-, -, -, none | ⟨can, -⟩⟩ := sized.sbrk_after pos takes start t run
      · rw [none]
        rfl
      · exact absurd ⟨pos, can⟩ cannot
  · rw [Kernel.sbrk_shrinks k p pos]
    rfl

/-- The kernel behind a call of `sbrk` that does not shrink the process. -/
theorem kernelAfter_one (sized : k.Sized p) (nonneg : 0 ≤ incr.toInt) {k' : Kernel.Spaces} (after : kernelAfter p incr 1 k = some k')
    (takes : 0 < incr.toInt → k.kmem.held = true → Kernel.PAGEROUNDUP (k.procs p).size < Kernel.sizePlus (k.procs p).size incr) :
    k'.Sized p ∧ (k'.procs p).size = (k.procs p).size + incr.toNat ∧ (∀ x, (k.procs p).Backs x → (k'.procs p).Backs x) ∧
      (0 < incr.toInt → k.CanGrow p incr → ∀ x, 0x1000 + (k.procs p).size ≤ x → x < 0x1000 + (k.procs p).size + incr.toNat →
        (k'.procs p).Backs x) := by
  unfold kernelAfter kernelAfter at after
  obtain ⟨⟨start, t⟩, run, same⟩ := Option.bind_eq_some_iff.1 after
  cases same
  have run : Kernel.sbrk p incr k = .ok (start, t) := by
    cases called : Kernel.sbrk p incr k with
    | error e =>
      rw [called] at run
      cases run
    | ok r =>
      rw [called] at run
      cases run
      rfl
  by_cases pos : 0 < incr.toInt
  · obtain ⟨sized', size, kept, answer⟩ := sized.sbrk_after pos (takes pos) start t run
    refine ⟨sized', size, kept, fun _ can => ?_⟩
    obtain ⟨start', t', run', some⟩ := sized.sbrk_returns pos can
    rw [run] at run'
    cases run'
    rcases answer with none | ⟨-, -, mapped⟩
    · rw [none] at some
      cases some
    · exact mapped
  · have zero : incr = 0 := by
      have none : incr.toInt = 0 := by omega
      exact BitVec.toInt_inj.1 none
    subst zero
    have small := sized.small
    have size : Kernel.sizePlus (k.procs p).size 0 = (k.procs p).size := by
      unfold Kernel.sizePlus
      have none : (0 : BitVec 32).toInt = 0 := rfl
      rw [none, Int.add_zero]
      omega
    rw [Kernel.sbrk_shrinks k p pos, size, Function.update_eq_self] at run
    cases run
    exact ⟨sized, rfl, fun _ backs => backs, fun pos' => absurd pos' pos⟩

theorem Process.Kept.rises (kept : s.Kept base_pos p) (bytes : (asked nbytes).toInt = wanted nbytes) :
    (s.env base_pos p).Rises s.program.heap (wanted nbytes) := by
  have answer := s.env_first base_pos p (asked nbytes)
  rw [bytes] at answer
  unfold Env.Rises
  rw [answer]
  intro up
  by_cases grants : 0 < (asked nbytes).toInt ∧ s.kernel.CanGrow p (asked nbytes)
  · rw [granted_eq kept.sized grants.1 grants.2]
    exact ⟨kept.low, kept.top⟩
  · exact absurd (granted_zero kept.sized grants) up

theorem wanted_least (nbytes : BitVec 64) : 8192 ≤ wanted nbytes := by
  have least : MINALLOC ≤ max (units nbytes) MINALLOC := le_max_right ..
  have some : MINALLOC = 512 := rfl
  rw [wanted]
  omega

theorem asked_toNat (bytes : (asked nbytes).toInt = wanted nbytes) : (asked nbytes).toNat = wanted nbytes := by
  have cond := BitVec.toInt_eq_toNat_cond (asked nbytes)
  split at cond
  · omega
  · have lt := (asked nbytes).isLt
    omega

/-- The `int` is not above the bytes. -/
theorem asked_le (nbytes : BitVec 64) : (asked nbytes).toInt ≤ wanted nbytes := by
  have low : (asked nbytes).toNat ≤ wanted nbytes := by
    rw [asked, BitVec.toNat_ofNat]
    exact Nat.mod_le _ _
  have cond := BitVec.toInt_eq_toNat_cond (asked nbytes)
  split at cond
  · omega
  · have lt := (asked nbytes).isLt
    omega

/-- The bytes wanted do not fit the page that the process ends in. -/
theorem takes_page (sized : k.Sized p) (bytes : (asked nbytes).toInt = wanted nbytes) :
    Kernel.PAGEROUNDUP (k.procs p).size < Kernel.sizePlus (k.procs p).size (asked nbytes) := by
  have small := sized.small
  have least := wanted_least nbytes
  have count := asked_toNat bytes
  unfold Kernel.PAGEROUNDUP
  rw [Kernel.sizePlus_eq (by omega) (by omega), count, Nat.mod_eq_of_lt (by simp only [Kernel.PAGESIZE, Kernel.U64]; omega)]
  simp only [Kernel.PAGESIZE]
  omega

/-- What a call leaves for which the request fits. -/
structure Process.Answered (base_pos : base ≠ 0) (p : Kernel.ProcId) (s : Process) (nbytes : BitVec 64) (r : Nat) (t : Heap) : Prop where
  calls : t.calls ≠ s.program.heap.calls → 0 ≤ (asked nbytes).toInt ∧
    (granted p (asked nbytes) s.kernel ≠ 0 → (wanted nbytes : Int) ≤ (asked nbytes).toInt)
  block : r ≠ 0 → (kernelAfter p (asked nbytes) (t.calls - s.program.heap.calls) s.kernel).isSome ∧
    nbytes.toNat + 16 ≤ 16 * (t.hdr (r - 16)).size
  kept : ∀ kernel, kernelAfter p (asked nbytes) (t.calls - s.program.heap.calls) s.kernel = some kernel →
    Process.Kept base_pos p ⟨kernel, t, if r = 0 then s.program.live else (r - 16, nbytes) :: s.program.live⟩

/-- A free block serves it. -/
theorem Process.Kept.malloc_served (kept : s.Kept base_pos p) (nonzero : nbytes ≠ 0) (block : s.program.heap.HasBlock (units nbytes)) :
    ∃ q t, malloc (s.env base_pos p) nbytes s.program.heap = .ok (q + 16, t) ∧ (t.hdr q).size = units nbytes ∧
      t.calls = s.program.heap.calls ∧ (Rounds nbytes → s.Answered base_pos p nbytes (q + 16) t) := by
  obtain ⟨u, l, rings⟩ := kept.heap.rings
  have w := rings.whole
  obtain ⟨t, q, run, took, regions, calls⟩ :=
    w.frees.malloc_served w.tiled w.start nonzero ((rings.block _ (units_pos nbytes)).1 block)
  have calls := calls.trans rings.calls
  refine ⟨q, t, (rings.same nbytes nonzero).trans run, took.size, calls, fun rounds => ⟨fun ne => absurd calls ne, fun _ => ?_, ?_⟩⟩
  · rw [calls, Nat.sub_self, Nat.add_sub_cancel, took.size]
    exact ⟨rfl, rounds.units_enough⟩
  · intro kernel after
    rw [calls, Nat.sub_self] at after
    cases after
    rw [if_neg (by omega), Nat.add_sub_cancel]
    have same := regions.trans rings.regions
    obtain ⟨l', w'⟩ := w.took took rounds
    refine ⟨kept.sized, .inr ⟨l', w'.frees, w'.tiled, w'.start, w'.sized⟩, kept.low, ?_, ?_⟩
    · show ∀ r ∈ t.regions, _
      rw [same]
      exact kept.top
    · show ∀ r ∈ t.regions, _
      rw [same]
      exact kept.backed

/-- Without one, `malloc` calls `sbrk`. -/
theorem Process.Kept.malloc_calls (kept : s.Kept base_pos p) (nonzero : nbytes ≠ 0) (none : ¬ s.program.heap.HasBlock (units nbytes)) :
    After (malloc (s.env base_pos p) nbytes) s.program.heap fun _ t => s.program.heap.calls + 1 ≤ t.calls := by
  obtain ⟨u, l, rings⟩ := kept.heap.rings
  have w := rings.whole
  have small := rings.small (units_pos nbytes) none
  rw [← rings.calls]
  exact fun r t run => w.frees.malloc_calls w.tiled w.start nonzero small r t ((rings.same nbytes nonzero).symm.trans run)

/-- It gets nothing. -/
theorem Process.Kept.malloc_null (kept : s.Kept base_pos p) (nonzero : nbytes ≠ 0) (none : ¬ s.program.heap.HasBlock (units nbytes))
    (cannot : ¬ s.Grants p nbytes) :
    ∃ t, malloc (s.env base_pos p) nbytes s.program.heap = .ok (0, t) ∧ t.calls = s.program.heap.calls + 1 ∧
      (0 ≤ (asked nbytes).toInt → s.Answered base_pos p nbytes 0 t) := by
  obtain ⟨u, l, rings⟩ := kept.heap.rings
  have w := rings.whole
  have small := rings.small (units_pos nbytes) none
  have nothing := granted_zero kept.sized cannot
  have answer := (s.env_first base_pos p (asked nbytes)).trans nothing
  rw [← rings.calls] at answer
  have run := w.frees.malloc_null w.tiled w.start nonzero small answer
  refine ⟨_, (rings.same nbytes nonzero).trans run, congrArg (· + 1) rings.calls, fun nonneg => ⟨fun _ => ⟨nonneg, fun some => absurd nothing some⟩, nofun, ?_⟩⟩
  intro kernel after
  have one : u.calls + 1 - s.program.heap.calls = 1 := by
    rw [rings.calls]
    omega
  simp only [one] at after
  have takes : 0 < (asked nbytes).toInt → s.kernel.kmem.held = true →
      Kernel.PAGEROUNDUP (s.kernel.procs p).size < Kernel.sizePlus (s.kernel.procs p).size (asked nbytes) := by
    intro pos held
    by_contra stays
    exact cannot ⟨pos, .inl (not_lt.1 stays)⟩
  obtain ⟨sized, size, backs, -⟩ := kernelAfter_one kept.sized nonneg after takes
  rw [if_pos rfl]
  refine ⟨sized, .inr ⟨l, ⟨w.frees.ring, w.frees.apart, w.frees.sentinel⟩, ⟨w.tiled.tiles, w.tiled.above⟩, w.start, w.sized⟩, ?_, ?_, ?_⟩
  · have low := kept.low
    show base + 16 ≤ 0x1000 + (kernel.procs p).size
    omega
  · show ∀ r ∈ u.regions, r.1 + r.2 ≤ 0x1000 + (kernel.procs p).size
    rw [rings.regions, size]
    intro r mem
    have top := kept.top r mem
    omega
  · show ∀ r ∈ u.regions, ∀ x, Span.Has r x → (kernel.procs p).Backs x
    rw [rings.regions]
    exact fun r mem x has => backs x (kept.backed r mem x has)

/-- It gets what it wants. -/
theorem Process.Kept.malloc_more (kept : s.Kept base_pos p) (nonzero : nbytes ≠ 0) (none : ¬ s.program.heap.HasBlock (units nbytes))
    (grants : s.Grants p nbytes) (bytes : (asked nbytes).toInt = wanted nbytes) :
    ∃ q t, malloc (s.env base_pos p) nbytes s.program.heap = .ok (q + 16, t) ∧ (t.hdr q).size = units nbytes ∧
      (Rounds nbytes → s.Answered base_pos p nbytes (q + 16) t) := by
  obtain ⟨u, l, rings⟩ := kept.heap.rings
  have w := rings.whole
  have small := rings.small (units_pos nbytes) none
  have rises := kept.rises bytes
  have start := granted_eq kept.sized grants.1 grants.2
  have answer := (s.env_first base_pos p (asked nbytes)).trans start
  rw [bytes, ← rings.calls] at answer
  have up : (s.env base_pos p).sbrk u.calls (wanted nbytes) ≠ 0 := by
    rw [answer]
    omega
  have rises' : (s.env base_pos p).Rises u (wanted nbytes) := by
    unfold Env.Rises at rises ⊢
    rw [rings.calls, rings.regions]
    exact rises
  obtain ⟨t, q, run, took, regions, calls⟩ := w.frees.malloc_more w.tiled w.start nonzero small bytes rises' up
  rw [answer, rings.regions] at regions
  rw [rings.calls] at calls
  have one : t.calls - s.program.heap.calls = 1 := by omega
  have nonneg : 0 ≤ (asked nbytes).toInt := grants.1.le
  refine ⟨q, t, (rings.same nbytes nonzero).trans run, took.size, fun rounds => ⟨fun _ => ⟨nonneg, fun _ => bytes.ge⟩, fun _ => ⟨?_, ?_⟩, ?_⟩⟩
  · obtain ⟨a, k', called, -⟩ := kept.sized.sbrk_returns grants.1 grants.2
    rw [one, kernelAfter, called]
    rfl
  · rw [Nat.add_sub_cancel, took.size]
    exact rounds.units_enough
  · intro kernel after
    rw [one] at after
    obtain ⟨sized, size, backs, more⟩ := kernelAfter_one kept.sized nonneg after fun _ _ => takes_page kept.sized bytes
    rw [asked_toNat bytes] at size more
    obtain ⟨l', w'⟩ := w.took took rounds
    rw [if_neg (by omega), Nat.add_sub_cancel]
    refine ⟨sized, .inr ⟨l', w'.frees, w'.tiled, w'.start, w'.sized⟩, ?_, ?_, ?_⟩
    · have low := kept.low
      show base + 16 ≤ 0x1000 + (kernel.procs p).size
      omega
    · show ∀ r ∈ t.regions, r.1 + r.2 ≤ 0x1000 + (kernel.procs p).size
      rw [regions, size]
      refine List.forall_mem_cons.2 ⟨by simp only; omega, fun r mem => ?_⟩
      have top := kept.top r mem
      omega
    · show ∀ r ∈ t.regions, ∀ x, Span.Has r x → (kernel.procs p).Backs x
      rw [regions]
      refine List.forall_mem_cons.2 ⟨fun x has => ?_, fun r mem x has => backs x (kept.backed r mem x has)⟩
      exact more grants.1 grants.2 x has.1 has.2

/-- **One call.** A request that fits is answered right. -/
theorem Process.Kept.malloc_answers (kept : s.Kept base_pos p) (fits : s.Fits p nbytes) :
    ∃ r t, malloc (s.env base_pos p) nbytes s.program.heap = .ok (r, t) ∧ s.Answered base_pos p nbytes r t := by
  rcases eq_or_ne nbytes 0 with rfl | nonzero
  · refine ⟨0, s.program.heap, rfl, fun ne => absurd rfl ne, fun ne => absurd rfl ne, fun kernel after => ?_⟩
    rw [Nat.sub_self] at after
    cases after
    rw [if_pos rfl]
    exact kept
  · rcases fits with zero | ⟨block, rounds⟩ | ⟨none, nonneg, granted⟩
    · exact absurd zero nonzero
    · obtain ⟨q, t, run, -, -, answered⟩ := kept.malloc_served nonzero block
      exact ⟨_, t, run, answered rounds⟩
    · by_cases grants : s.Grants p nbytes
      · obtain ⟨bytes, rounds⟩ := granted grants
        obtain ⟨q, t, run, -, answered⟩ := kept.malloc_more nonzero none grants bytes
        exact ⟨_, t, run, answered rounds⟩
      · obtain ⟨t, run, -, answered⟩ := kept.malloc_null nonzero none grants
        exact ⟨_, t, run, answered nonneg⟩

/-- A right answer, seen from the process. -/
theorem Process.Answered.right {r : Nat} {t : Heap} (answered : s.Answered base_pos p nbytes r t)
    (run : malloc (s.env base_pos p) nbytes s.program.heap = .ok (r, t)) : s.MallocRight base_pos p nbytes := by
  refine ⟨r, t, run, answered.calls, fun some => ?_⟩
  obtain ⟨there, bytes⟩ := answered.block some
  obtain ⟨kernel, after⟩ := Option.isSome_iff_exists.1 there
  have kept := answered.kept kernel after
  refine ⟨kernel, after, bytes, fun x has => ?_⟩
  obtain ⟨l, -, -, tiles, -⟩ := kept.heap.shape
  rw [if_neg some] at tiles
  have mem : t.span (r - 16) ∈ (l ++ ((r - 16, nbytes) :: s.program.live).map Prod.fst).map t.span :=
    List.mem_map_of_mem (List.mem_append_right l List.mem_cons_self)
  obtain ⟨g, inside, has'⟩ := tiles.inside _ mem x has
  exact ⟨⟨g, inside, has'⟩, kept.backed g inside x has'⟩

/-- **A call of `malloc`** is right just where the request fits. -/
theorem Process.Kept.malloc_iff (kept : s.Kept base_pos p) (nbytes : BitVec 64) : s.MallocRight base_pos p nbytes ↔ s.Fits p nbytes := by
  refine ⟨fun right => ?_, fun fits => ?_⟩
  · by_contra misfit
    unfold Process.Fits at misfit
    push Not at misfit
    obtain ⟨nonzero, served, asks⟩ := misfit
    -- a block of one unit for a request that has wrapped around
    have wrapped : ∀ q t, malloc (s.env base_pos p) nbytes s.program.heap = .ok (q + 16, t) → (t.hdr q).size = units nbytes →
        Rounds nbytes := by
      intro q t run size
      by_contra wraps
      obtain ⟨r, t', run', -, block⟩ := right
      rw [run] at run'
      cases run'
      obtain ⟨-, -, bytes, -⟩ := block (by omega)
      rw [Nat.add_sub_cancel, size, units_wrapped wraps] at bytes
      have zero : nbytes.toNat = 0 := by omega
      exact nonzero (BitVec.toNat_eq.2 zero)
    by_cases block : s.program.heap.HasBlock (units nbytes)
    · obtain ⟨q, t, run, size, -⟩ := kept.malloc_served nonzero block
      exact served block (wrapped q t run size)
    · have calls := kept.malloc_calls nonzero block
      obtain ⟨r, t, run, asked', -⟩ := right
      have more := calls r t run
      obtain ⟨nonneg, enough⟩ := asked' (by omega)
      obtain ⟨grants, less⟩ := asks block nonneg
      have start := granted_eq kept.sized grants.1 grants.2
      have enough := enough (by omega)
      have most := asked_le nbytes
      have bytes : (asked nbytes).toInt = wanted nbytes := by omega
      obtain ⟨q, t', run', size, -⟩ := kept.malloc_more nonzero block grants bytes
      exact less bytes (wrapped q t' run' size)
  · obtain ⟨r, t, run, answered⟩ := kept.malloc_answers fits
    exact answered.right run

end Answers

section Processes
variable {base : Nat} {base_pos : base ≠ 0} {p : Kernel.ProcId} {s t : Process} {nbytes : BitVec 64}

theorem Kept.of_base {env env' : Env} {s : Program} (kept : s.Kept env) (same : env'.base = env.base) : s.Kept env' := by
  rcases kept with start | ⟨l, w⟩
  · exact .inl start
  · right
    refine ⟨l, ⟨?_, ?_, ?_⟩, ⟨w.tiled.tiles, ?_⟩, ?_, w.sized⟩
    · rw [same]
      exact w.frees.ring
    · rw [same]
      exact w.frees.apart
    · rw [same]
      exact w.frees.sentinel
    · rw [same]
      exact w.tiled.above
    · rw [same]
      exact w.start

/-- Freeing and storing leave the memory of the heap alone. -/
theorem HeapCall.run_alone {env : Env} {s t : Program} {call : HeapCall} (other : ∀ nbytes, call ≠ .malloc nbytes) (run : call.run env s = .ok t) :
    t.heap.regions = s.heap.regions ∧ t.heap.calls = s.heap.calls := by
  cases call with
  | malloc nbytes => exact absurd rfl (other nbytes)
  | free ptr =>
    cases freed : Usr.free env ptr s.heap with
    | error e =>
      rw [HeapCall.run, freed] at run
      cases run
    | ok r =>
      obtain ⟨⟨⟩, h⟩ := r
      rw [HeapCall.run, freed] at run
      cases run
      exact free_alone ptr s.heap () h freed
  | write a h =>
    cases run
    exact ⟨rfl, rfl⟩

theorem Process.Kept.step_heap (kept : s.Kept base_pos p) {call : HeapCall} (fits : ProcessStep.Fits p s (.heap call))
    (step : (processSystem base_pos p).step s (.heap call) = some t) : t.Kept base_pos p := by
  unfold processSystem at step
  dsimp only at step
  split at step
  case isFalse => cases step
  case isTrue on =>
  obtain ⟨program, ran, step⟩ := Option.bind_eq_some_iff.1 step
  obtain ⟨kernel, after, same⟩ := Option.map_eq_some_iff.1 step
  cases same
  by_cases asks : ∃ nbytes, call = .malloc nbytes
  · obtain ⟨nbytes, rfl⟩ := asks
    obtain ⟨r, h, run, answered⟩ := kept.malloc_answers fits
    rw [HeapCall.run, run] at ran
    cases ran
    exact answered.kept kernel after
  · push Not at asks
    obtain ⟨program', run, kept'⟩ := HeapCall.run_ok kept.heap on (by
      cases call with
      | malloc nbytes => exact absurd rfl (asks nbytes)
      | free ptr => trivial
      | write a h => trivial)
    rw [run] at ran
    cases ran
    obtain ⟨regions, calls⟩ := HeapCall.run_alone asks run
    rw [calls, Nat.sub_self] at after
    cases after
    refine ⟨kept.sized, Kept.of_base kept' rfl, kept.low, ?_, ?_⟩
    · simp only [regions]
      exact kept.top
    · simp only [regions]
      exact kept.backed

theorem Process.Kept.step_others (kept : s.Kept base_pos p) {kmem : Kernel.Kallocator} {procs : Kernel.ProcId → Kernel.UserProc} {nextpid : Int}
    (step : (processSystem base_pos p).step s (.others kmem procs nextpid) = some t) : t.Kept base_pos p := by
  unfold processSystem at step
  dsimp only at step
  split at step
  case isFalse => cases step
  case isTrue on =>
  cases step
  obtain ⟨few, lock⟩ := on
  have slot : Function.update procs p (s.kernel.procs p) p = s.kernel.procs p := Function.update_self ..
  have sized := kept.sized
  refine ⟨⟨?_, ?_, ?_, fun free => ?_⟩, Kept.of_base kept.heap rfl, ?_, ?_, ?_⟩
  · simp only [slot]
    exact few
  · simp only [slot]
    exact sized.small
  · simp only [slot]
    exact sized.table
  · simp only [slot]
    refine sized.image ?_
    cases held : s.kernel.kmem.held with
    | false => rfl
    | true => exact (lock held).symm.trans free
  · simp only [slot]
    exact kept.low
  · simp only [slot]
    exact kept.top
  · simp only [slot]
    exact kept.backed

/-- What holds in every run whose requests fit. -/
theorem process_kept (run : (processSystem base_pos p).Via (ProcessStep.Fits p) s) : s.Kept base_pos p := by
  apply run.invariant
  · rintro s ⟨sized, -, low, pointer, regions, live⟩
    refine ⟨sized, .inl ⟨pointer, regions, live⟩, low, ?_, ?_⟩
    · rw [regions]
      nofun
    · rw [regions]
      nofun
  · intro s step t kept fits ran
    cases step with
    | heap call => exact kept.step_heap fits ran
    | others kmem procs nextpid => exact kept.step_others ran

/-- **`malloc`** returns `NULL` or a block that is as long as was asked for and in memory that the kernel has mapped, and
makes `sbrk` neither shrink the process nor grant too little, just where the request fits. -/
theorem malloc_right_iff (run : (processSystem base_pos p).Via (ProcessStep.Fits p) s) (nbytes : BitVec 64) :
    s.MallocRight base_pos p nbytes ↔ s.Fits p nbytes := (process_kept run).malloc_iff nbytes

/-- A request that `sbrk`'s argument holds: it ends with a block, or without one where there is no memory. -/
theorem Process.Kept.malloc_ends (kept : s.Kept base_pos p) (small : Small nbytes) :
    ∃ r t, malloc (s.env base_pos p) nbytes s.program.heap = .ok (r, t) ∧
      (r = 0 → nbytes = 0 ∨ t.calls = s.program.heap.calls + 1 ∧ granted p (asked nbytes) s.kernel = 0) := by
  rcases eq_or_ne nbytes 0 with rfl | nonzero
  · exact ⟨0, s.program.heap, rfl, fun _ => .inl rfl⟩
  · by_cases block : s.program.heap.HasBlock (units nbytes)
    · obtain ⟨q, t, run, -⟩ := kept.malloc_served nonzero block
      exact ⟨_, t, run, nofun⟩
    · by_cases grants : s.Grants p nbytes
      · obtain ⟨q, t, run, -⟩ := kept.malloc_more nonzero block grants small.bytes
        exact ⟨_, t, run, nofun⟩
      · obtain ⟨t, run, calls, -⟩ := kept.malloc_null nonzero block grants
        exact ⟨0, t, run, fun _ => .inr ⟨calls, granted_zero kept.sized grants⟩⟩

/-- Freeing a block in use: the loop stops at the last free block before it. -/
theorem Program.Kept.free_ends {env : Env} {s : Program} (kept : s.Kept env) {b : Nat × BitVec 64} (mem : b ∈ s.live) :
    ∃ l₁ l₂, Path s.heap.next env.base (l₁ ++ l₂) env.base ∧ (env.base :: (l₁ ++ b.1 :: l₂)).Pairwise (· < ·) ∧
      freeFrom env b.1 (s.heap.total + 2) s.heap.freep s.heap = .ok (lastOf env.base l₁, s.heap) ∧
      ∃ t l, free env (b.1 + 16) s.heap = .ok ((), t) ∧ Path t.next env.base l env.base ∧ (env.base :: l).Pairwise (· < ·) := by
  rcases kept with ⟨-, -, live⟩ | ⟨l, w⟩
  · rw [live] at mem
    cases mem
  · have inside : b.1 ∈ s.live.map Prod.fst := List.mem_map_of_mem mem
    have order : (l ++ s.live.map Prod.fst).Perm (b.1 :: l ++ (s.live.map Prod.fst).erase b.1) :=
      ((List.perm_cons_erase inside).append_left l).trans List.perm_middle
    have tiled := w.tiled.perm order
    have out : b.1 ∉ l := fun mem' => w.tiled.not_behind (List.mem_cons_of_mem _ mem') inside
    have base_lt : env.base < b.1 := by
      have above := w.tiled.base_lt (List.mem_append_right l inside)
      omega
    obtain ⟨t, l', freed, frees, -⟩ := w.frees.free_ok tiled w.start
    obtain ⟨l₁, l₂, rfl, low, above⟩ := exists_split (List.pairwise_cons.1 w.frees.sorted).2 out
    have below : ∀ a ∈ env.base :: l₁, a < b.1 := List.forall_mem_cons.2 ⟨base_lt, low⟩
    have owned : ∀ a ∈ env.base :: (l₁ ++ l₂), s.heap.Owned env.base a :=
      List.forall_mem_cons.2 ⟨s.heap.owned_base _, fun a mem => w.tiled.owned (List.mem_append_left _ mem)⟩
    have count := w.tiled.tiles.length_le
    rw [List.length_map, List.length_append] at count
    have enough : (l₁ ++ l₂).length < s.heap.total + 2 := by
      unfold Heap.total
      omega
    refine ⟨l₁, l₂, w.frees.ring, ?_, w.frees.freeFrom_finds owned below above w.start enough, t, l', freed, frees.ring, frees.sorted⟩
    have sorted := w.frees.sorted
    rw [← List.cons_append] at sorted ⊢
    obtain ⟨first, second, across⟩ := List.pairwise_append.1 sorted
    refine List.pairwise_append.2 ⟨first, List.pairwise_cons.2 ⟨above, second⟩, fun a mem c mem' => ?_⟩
    rcases List.mem_cons.1 mem' with rfl | mem'
    · exact below a mem
    · exact across a mem c mem'

/-- **The loops end**: that of `malloc` for any request that `sbrk`'s argument holds, with a block, or without one where
`sbrk` has returned `NULL`; and that of `free` for any block in use, at the free block behind which it keeps the list in
order. -/
theorem heap_loops_end (run : (processSystem base_pos p).Via (ProcessStep.Fits p) s) :
    (∀ nbytes, Small nbytes → ∃ r t, malloc (s.env base_pos p) nbytes s.program.heap = .ok (r, t) ∧
      (r = 0 → nbytes = 0 ∨ t.calls = s.program.heap.calls + 1 ∧ granted p (asked nbytes) s.kernel = 0)) ∧
    ∀ b ∈ s.program.live, ∃ l₁ l₂, Path s.program.heap.next base (l₁ ++ l₂) base ∧ (base :: (l₁ ++ b.1 :: l₂)).Pairwise (· < ·) ∧
      freeFrom (s.env base_pos p) b.1 (s.program.heap.total + 2) s.program.heap.freep s.program.heap = .ok (lastOf base l₁, s.program.heap) ∧
      ∃ t l, free (s.env base_pos p) (b.1 + 16) s.program.heap = .ok ((), t) ∧ Path t.next base l base ∧ (base :: l).Pairwise (· < ·) :=
  ⟨fun _ small => (process_kept run).malloc_ends small, fun _ mem => (process_kept run).heap.free_ends mem⟩

end Processes

section Example

/-- The first process, with the heap not used, on a machine with 20 pages. -/
theorem first_process : ∃ kernel, Kernel.smallBoot = some kernel ∧ (kernel.procs 0).size = 0x1000 ∧
    (@processSystem 0x1f00 (by decide) 0).init ⟨kernel, fresh⟩ := by
  have ran : (Kernel.smallBoot.map fun kernel => decide ((kernel.procs 0).state = .RUNNABLE ∧ (kernel.procs 0).size = 0x1000 ∧
      kernel.kmem.held = false ∧ (kernel.procs 0).pgt.isSome)) = some true := by decide +kernel
  obtain ⟨kernel, boot, shown⟩ := Option.map_eq_some_iff.1 ran
  obtain ⟨live, size, free, table⟩ := of_decide_eq_true shown
  have right := Kernel.spaces_init (Kernel.smallBoot_init boot)
  refine ⟨kernel, boot, size, ⟨right.few 0, ?_, table, fun _ => right.image 0 live⟩, free, ?_, rfl, rfl, rfl⟩
  · rw [size]
    decide
  · rw [size]
    decide

/-- Its first request. -/
theorem first_fits {kernel : Kernel.Spaces} : Process.Fits 0 ⟨kernel, fresh⟩ 100 := by
  have rounds : Rounds 100 := by
    unfold Rounds
    decide
  exact .inr (.inr ⟨fun block => block.1 rfl, by decide, fun _ => ⟨by decide, rounds⟩⟩)

theorem first_malloc_right : ∃ kernel, Kernel.smallBoot = some kernel ∧
    @Process.MallocRight 0x1f00 (by decide) 0 ⟨kernel, fresh⟩ 100 := by
  obtain ⟨kernel, boot, -, start⟩ := first_process
  exact ⟨kernel, boot, (malloc_right_iff (.init start) 100).2 first_fits⟩

/-- Two gigabytes: what `sbrk` is asked for is a negative number. -/
theorem huge_malloc_shrinks : ∃ kernel, Kernel.smallBoot = some kernel ∧ (asked 0x80000000).toInt = -2147483632 ∧
    ¬ @Process.MallocRight 0x1f00 (by decide) 0 ⟨kernel, fresh⟩ 0x80000000 := by
  obtain ⟨kernel, boot, -, start⟩ := first_process
  have negative : (asked 0x80000000).toInt = -2147483632 := by decide
  refine ⟨kernel, boot, negative, fun right => ?_⟩
  rcases ((process_kept (.init start)).malloc_iff _).1 right with zero | ⟨block, -⟩ | ⟨-, nonneg, -⟩
  · exact absurd zero (by decide)
  · exact block.1 rfl
  · rw [negative] at nonneg
    exact absurd nonneg (by decide)

/-- Behind a first block, the loops of the next request and of freeing the block end. -/
theorem first_loops_end : ∃ t : Process, t.program.live = [(0x3f80, 100)] ∧
    (∃ r u, malloc (@Process.env 0x1f00 (by decide) 0 t) 9000 t.program.heap = .ok (r, u)) ∧
    ∃ u, free (@Process.env 0x1f00 (by decide) 0 t) 0x3f90 t.program.heap = .ok ((), u) := by
  obtain ⟨kernel, boot, -, start⟩ := first_process
  have ran : (Kernel.smallBoot.bind fun kernel => ((@processSystem 0x1f00 (by decide) 0).step ⟨kernel, fresh⟩ (.heap (.malloc 100))).map
      fun t => t.program.live) = some [(0x3f80, 100)] := by decide +kernel
  rw [boot, Option.bind_some] at ran
  obtain ⟨t, step, live⟩ := Option.map_eq_some_iff.1 ran
  obtain ⟨mallocs, frees⟩ := heap_loops_end ((System.Via.init start).step (a := .heap (.malloc 100)) first_fits step)
  obtain ⟨r, u, run, -⟩ := mallocs 9000 (by unfold Small; decide)
  obtain ⟨-, -, -, -, -, u', -, freed, -⟩ := frees (0x3f80, 100) (by rw [live]; exact List.mem_cons_self)
  exact ⟨t, live, ⟨r, u, run⟩, u', freed⟩

end Example

end Aarch64Os.Usr
