import Aarch64Os.Base.Tiling
import Aarch64Os.Kernel.Mm.ThreadPages

/-!
# The break of a shared address space (`kernel/proc.c`)

`clone` copies `p->size`, and `sbrk` changes that of its caller only, while what it maps is mapped for
all the processes with the table. A call whose size is behind that of another maps pages that are
there, or returns addresses that have been returned. The rest of the kernel may run between two
calls: it allocates and frees pages, and lets processes of the group exit.
-/

namespace Aarch64Os.Kernel.Thread
set_option autoImplicit false
open Base

/-- A process that runs with the table `id`. -/
def Member (id : Nat) (s : Threads) (p : ProcId) : Prop := (s.procs p).state = .RUNNABLE ∧ (s.procs p).pgt = some id

instance (id : Nat) (s : Threads) (p : ProcId) : Decidable (Member id s p) := inferInstanceAs (Decidable (_ ∧ _))

/-- The processes, and the ranges that the group's calls of `sbrk` have returned. -/
structure Sharing where
  threads : Threads
  ranges : List Span

/-- A call by a process of the group, or what others have made of the free pages and the slots. -/
inductive ShareCall where
  | clone (p : ProcId)
  | sbrk (p : ProcId) (incr : BitVec 32)
  | others (kmem : Kallocator) (procs : ProcId → ThreadProc)

/-- An increment is positive. Others leave a lock that is held, take no page of the table, and no
process of the group but one that exits is theirs. -/
def ShareCall.enabled (id : Nat) (s : Threads) : ShareCall → Prop
  | clone p => Member id s p
  | sbrk p incr => Member id s p ∧ 0 < incr.toInt
  | others kmem procs => (s.kmem.held = true → kmem.held = true) ∧ (∀ pgt ∈ s.tables id, kmem.free + pgt.pages ≤ bootPages) ∧
      ∀ p, (procs p).state = .RUNNABLE → (procs p).pgt = some id → procs p = s.procs p

instance (id : Nat) (s : Threads) (call : ShareCall) : Decidable (call.enabled id s) :=
  match call with
  | .clone _ => inferInstanceAs (Decidable (Member ..))
  | .sbrk .. | .others .. => inferInstanceAs (Decidable (_ ∧ _))

def ShareCall.run (call : ShareCall) (s : Sharing) : Except Fault Sharing :=
  match call with
  | clone p => (Thread.clone p s.threads).map fun r => { s with threads := r.2 }
  | sbrk p incr => (Thread.sbrk p incr s.threads).map fun r =>
      { threads := r.2, ranges := r.1.elim s.ranges fun h => (h, incr.toNat) :: s.ranges }
  | others kmem procs => .ok { s with threads := { s.threads with kmem, procs } }

/-- One process has the table, and maps what its size says. -/
structure Alone (id : Nat) (s : Threads) (p : ProcId) : Prop where
  member : Member id s p
  only : ∀ q, Member id s q → q = p
  next : id < s.next
  right : (s.space p).Right
  small : (s.procs p).size < 2 ^ 39
  few : s.kmem.free + (s.space p).pages ≤ bootPages

/-- The processes that share the table `id`. -/
def sharing (id : Nat) : System Sharing ShareCall where
  init s := (∃ p, Alone id s.threads p) ∧ s.ranges = []
  step s call := if call.enabled id s.threads then (call.run s).toOption else none

/-- `sbrk` is called by a process whose size takes in all that has been returned. -/
def Newest (s : Sharing) : ShareCall → Prop
  | .sbrk p _ => ∀ r ∈ s.ranges, r.1 + r.2 ≤ 0x1000 + (s.threads.procs p).size
  | .clone _ | .others .. => True

instance (s : Sharing) (call : ShareCall) : Decidable (Newest s call) :=
  match call with
  | .sbrk .. => inferInstanceAs (Decidable (∀ _ ∈ _, _))
  | .clone _ | .others .. => inferInstanceAs (Decidable True)

/-- The table maps an image of the size `brk`, which is the greatest of the group; it is where the last
range ends, unless no range has been returned. -/
structure Break (id : Nat) (s : Sharing) (pgt : PageTable) (brk : Nat) : Prop where
  table : s.threads.tables id = some pgt
  maps : pgt.Maps (Image (PAGEROUNDUP brk / PAGESIZE))
  long : PAGEROUNDUP brk / PAGESIZE ≤ pgt.pages
  small : brk < 2 ^ 39
  few : s.threads.kmem.free + pgt.pages ≤ bootPages
  sizes : ∀ p, Member id s.threads p → (s.threads.procs p).size ≤ brk
  last : (s.ranges = [] ∧ ∀ p, Member id s.threads p → (s.threads.procs p).size = brk) ∨ ∃ r ∈ s.ranges, r.1 + r.2 = 0x1000 + brk

/-- What the group's calls keep. Behind an allocation that has failed no page is mapped any more. -/
structure Shared (id : Nat) (s : Sharing) : Prop where
  apart : s.ranges.Pairwise Span.Apart
  next : id < s.threads.next
  small : ∀ p, Member id s.threads p → (s.threads.procs p).size ≤ 2 ^ 32
  mapped : s.threads.kmem.held = false → ∃ pgt brk, Break id s pgt brk

theorem not_used_panic {e : Fault} (h : ¬ PagePanic e) : e ≠ .panic "this entry has been used" := by
  rintro rfl
  exact h ⟨_, by decide, rfl⟩

/-- `grow_userspace` behind an allocation that has failed maps nothing. -/
theorem growUserspace_held {t : PageTable} {k : Kallocator} (held : k.held = true) (size newsz : Nat) :
    Ends PagePanic (growUserspace t 0x1000 size newsz) k fun g u => newsz ≤ PAGEROUNDUP size ∧ g = (some ((0x1000 + size) % U64), t) ∧ u = k := by
  unfold growUserspace
  dsimp only
  apply Ends.step (get_runs k)
  unfold allocPages
  split
  case isTrue more =>
    refine ⟨fun g u run => ?_, fun e fails => ?_⟩
    · obtain ⟨_, _, loop, -⟩ := run_bind.1 run
      obtain ⟨_, _, taken, -⟩ := run_bind.1 loop
      rw [kalloc_held held] at taken
      cases taken
    · rcases fail_bind.1 fails with loop | ⟨_, _, loop, -⟩
      · rw [fail_bind.2 (.inl (kalloc_held held))] at loop
        cases loop
        exact not_pagePanic_held
      · obtain ⟨_, _, taken, -⟩ := run_bind.1 loop
        rw [kalloc_held held] at taken
        cases taken
  case isFalse enough =>
    apply Ends.step (a := (true, t)) (t := k) rfl
    exact Ends.pure ⟨Nat.le_of_not_lt enough, rfl, rfl⟩

section Steps
variable {id : Nat} {s : Sharing} {p : ProcId}

/-- What a call returns does not overlap with what has been returned, when its size takes that in. -/
theorem apart_cons {incr : BitVec 32} (apart : s.ranges.Pairwise Span.Apart) (newest : Newest s (.sbrk p incr)) (small : (s.threads.procs p).size ≤ 2 ^ 32)
    (n : Nat) : (((0x1000 + (s.threads.procs p).size) % U64, n) :: s.ranges).Pairwise Span.Apart := by
  refine List.pairwise_cons.2 ⟨fun r mem => .inr ?_, apart⟩
  have ended := newest r mem
  rw [Nat.mod_eq_of_lt (by simp only [U64]; omega)]
  exact ended

/-- The sizes of the group when the slot of one process has changed. -/
theorem sizes_after {t : Threads} (sized : Nat → Prop) (others : ∀ q, q ≠ p → t.procs q = s.threads.procs q)
    (before : ∀ q, Member id s.threads q → sized (s.threads.procs q).size) (own : sized (t.procs p).size) (q : ProcId) (live : Member id t q) :
    sized (t.procs q).size := by
  rcases eq_or_ne q p with rfl | ne
  · exact own
  · unfold Member at live
    rw [others q ne] at live ⊢
    exact before q live

/-- A call behind an allocation that has failed: what it returns was mapped to the end of a page. -/
theorem sbrk_shared_held {incr : BitVec 32} (h : Shared id s) (held : s.threads.kmem.held = true) (member : Member id s.threads p) (pos : 0 < incr.toInt)
    (newest : Newest s (.sbrk p incr)) : Ends PagePanic (sbrk p incr) s.threads fun r t =>
      Shared id { threads := t, ranges := r.elim s.ranges fun start => (start, incr.toNat) :: s.ranges } := by
  have low := h.small p member
  unfold sbrk
  apply Ends.step (get_runs s.threads)
  dsimp only
  rw [if_pos pos]
  cases table : s.threads.tables id with
  | none =>
    have never : Ends PagePanic (tableOf p) s.threads fun _ _ => False := by
      unfold tableOf
      apply Ends.step (get_runs s.threads)
      rw [member.2]
      dsimp only
      rw [table]
      exact Ends.throw not_pagePanic_undefined
    exact never.bind fun _ _ => False.elim
  | some pgt =>
    apply Ends.step (tableOf_runs member.2 table)
    apply (onKmem_ends (growUserspace_held held _ _)).bind
    rintro _ t ⟨⟨inside, rfl, same⟩, keeps⟩
    rw [keeps, same]
    apply Ends.step (setTable_runs ..)
    apply Ends.step (setProc_runs ..)
    apply Ends.pure
    refine ⟨apart_cons h.apart newest low _, h.next, ?_, fun free => ?_⟩
    · apply sizes_after (· ≤ 2 ^ 32) (fun q ne => Function.update_of_ne ne ..) h.small
      unfold PAGEROUNDUP at inside
      rw [Nat.mod_eq_of_lt (by simp only [PAGESIZE, U64]; omega)] at inside
      simp only [PAGESIZE] at inside
      dsimp only
      rw [Function.update_self]
      dsimp only
      omega
    · exact absurd held (by rw [show s.threads.kmem.held = false from free]; nofun)

/-- **One `sbrk`** by a process whose size takes in all that has been returned. -/
theorem sbrk_shared {incr : BitVec 32} (h : Shared id s) (member : Member id s.threads p) (pos : 0 < incr.toInt)
    (newest : Newest s (.sbrk p incr)) : Ends PagePanic (sbrk p incr) s.threads fun r t =>
      Shared id { threads := t, ranges := r.elim s.ranges fun start => (start, incr.toNat) :: s.ranges } := by
  cases held : s.threads.kmem.held with
  | true => exact sbrk_shared_held h held member pos newest
  | false =>
  have low := h.small p member
  have newsz := sizePlus_eq (low.trans (by decide)) pos
  obtain ⟨pgt, brk, mapped⟩ := h.mapped held
  -- the size of the caller is the break of the group
  have own : (s.threads.procs p).size = brk := by
    rcases mapped.last with ⟨-, all⟩ | ⟨r, mem, ended⟩
    · exact all p member
    · have before := newest r mem
      have most := mapped.sizes p member
      omega
  have small := mapped.small
  have few := mapped.few
  have image := mapped.maps
  have long := mapped.long
  unfold bootPages at few
  have bound := size_le_memory small (by omega)
  have whole := (PAGEROUNDUP_pages brk).symm
  generalize PAGEROUNDUP brk / PAGESIZE = b at image long whole
  have value : incr.toNat < 2 ^ 31 := by
    have most : incr.toInt < 2 ^ 31 := incr.toInt_lt
    have cond := BitVec.toInt_eq_toNat_cond incr
    split at cond <;> omega
  have positive : 0 < incr.toNat := by
    have cond := BitVec.toInt_eq_toNat_cond incr
    split at cond <;> omega
  have above : b = 0 ∨ (b - 1) * PAGESIZE < brk + incr.toNat := by
    rcases PAGEROUNDUP_bounds (small.trans (by decide)) whole with zero | ⟨-, least⟩
    · exact .inl zero
    · exact .inr (by omega)
  unfold sbrk
  apply Ends.step (get_runs s.threads)
  dsimp only
  rw [if_pos pos, newsz, own]
  apply Ends.step (tableOf_runs member.2 mapped.table)
  apply (onKmem_ends ((growUserspace_ends s.threads.kmem whole image (by omega)).and_after
    (growUserspace_exact s.threads.kmem whole image (by omega) above))).bind
  rintro ⟨start, pgt'⟩ t ⟨⟨-, total, -, outcome⟩, keeps⟩
  rw [keeps]
  apply Ends.step (setTable_runs ..)
  apply Ends.step (setProc_runs ..)
  apply Ends.pure
  have sizes : ∀ q, Member id s.threads q → (s.threads.procs q).size ≤ brk := mapped.sizes
  rcases outcome with ⟨rfl, held'⟩ | ⟨rfl, k, le, image', size, grown⟩
  · refine ⟨h.apart, h.next, ?_, fun free => ?_⟩
    · apply sizes_after (· ≤ 2 ^ 32) (fun q ne => Function.update_of_ne ne ..) h.small
      dsimp only
      rw [Function.update_self]
      dsimp only
      omega
    · exact absurd held' (by rw [show t.kmem.held = false from free]; nofun)
  · have few' : t.kmem.free + pgt'.pages ≤ 2 ^ 16 := by
      simp only at total
      omega
    have more : b + k ≤ pgt'.pages := by
      simp only at grown
      omega
    have small' : brk + incr.toNat ≤ 2 ^ 32 := by omega
    have count : PAGEROUNDUP (brk + incr.toNat) / PAGESIZE = b + k := by rw [size, Nat.mul_div_cancel _ (by decide)]
    refine ⟨own ▸ apart_cons h.apart newest low _, h.next, ?_, fun free => ⟨pgt', brk + incr.toNat, ?_, ?_, ?_, ?_, ?_, ?_, ?_⟩⟩
    · apply sizes_after (· ≤ 2 ^ 32) (fun q ne => Function.update_of_ne ne ..) h.small
      dsimp only
      rw [Function.update_self]
      exact small'
    · exact Function.update_self ..
    · rw [count]
      exact image'
    · rw [count]
      exact more
    · omega
    · exact few'
    · apply sizes_after (· ≤ brk + incr.toNat) (fun q ne => Function.update_of_ne ne ..) fun q live => (sizes q live).trans (Nat.le_add_right ..)
      dsimp only
      rw [Function.update_self]
    · refine .inr ⟨_, List.mem_cons_self, ?_⟩
      dsimp only
      rw [Nat.mod_eq_of_lt (by simp only [U64]; omega)]
      omega

/-- `clone` gives its caller's size to the new process. -/
theorem clone_shared (h : Shared id s) (member : Member id s.threads p) : After (clone p) s.threads fun _ t => Shared id { s with threads := t } := by
  unfold clone
  refine (newproc_after s.threads).bind ?_
  rintro _ t (⟨rfl, ⟨held, next, same⟩ | ⟨rfl, -⟩⟩ | ⟨new, stack, page, rfl, unused, taken, kept, same⟩)
  · refine After.pure ⟨h.apart, next ▸ h.next, fun q live => ?_, fun free => absurd held (by rw [show t.kmem.held = false from free]; nofun)⟩
    have slot := same q live.1
    have live' : Member id s.threads q := by
      unfold Member at live ⊢
      rwa [slot] at live
    rw [slot]
    exact h.small q live'
  · exact After.pure h
  have ne : new ≠ p := by
    rintro rfl
    have live := member.1
    rw [unused] at live
    cases live
  have others : ∀ q, q ≠ new → t.procs q = s.threads.procs q := fun q ne => by rw [same]; exact Function.update_of_ne ne ..
  refine After.step (get_runs t) (After.step (setProc_runs ..) (After.pure ?_))
  rw [others p ne.symm]
  have others' : ∀ (f : ThreadProc) q, q ≠ new → Function.update t.procs new f q = s.threads.procs q :=
    fun f q ne => (Function.update_of_ne ne ..).trans (others q ne)
  have next : t.next = s.threads.next + 1 := by rw [same]
  refine ⟨h.apart, show id < t.next from next ▸ Nat.lt_succ_of_lt h.next, ?_, fun free => ?_⟩
  · apply sizes_after (· ≤ 2 ^ 32) (others' _) h.small
    dsimp only
    rw [Function.update_self]
    exact h.small p member
  · obtain ⟨pgt, brk, mapped⟩ := h.mapped (kept.symm.trans free)
    have few := mapped.few
    refine ⟨pgt, brk, ?_, mapped.maps, mapped.long, mapped.small, ?_, ?_, ?_⟩
    · show t.tables id = some pgt
      rw [same]
      exact (Function.update_of_ne h.next.ne ..).trans mapped.table
    · show t.kmem.free + pgt.pages ≤ bootPages
      omega
    · apply sizes_after (· ≤ brk) (others' _) mapped.sizes
      dsimp only
      rw [Function.update_self]
      exact mapped.sizes p member
    · rcases mapped.last with ⟨none, all⟩ | some
      · refine .inl ⟨none, ?_⟩
        apply sizes_after (· = brk) (others' _) all
        dsimp only
        rw [Function.update_self]
        exact all p member
      · exact .inr some

/-- What others do keeps the group, but for those that exit. -/
theorem others_shared {kmem : Kallocator} {procs : ProcId → ThreadProc} (h : Shared id s)
    (away : (ShareCall.others kmem procs).enabled id s.threads) : Shared id { s with threads := { s.threads with kmem, procs } } := by
  obtain ⟨locked, few, slots⟩ := away
  have before : ∀ q, Member id { s.threads with kmem, procs } q → Member id s.threads q ∧ procs q = s.threads.procs q := by
    intro q live
    have slot := slots q live.1 live.2
    unfold Member at live ⊢
    dsimp only at live
    rw [slot] at live
    exact ⟨live, slot⟩
  refine ⟨h.apart, h.next, fun q live => ?_, fun free => ?_⟩
  · obtain ⟨live', slot⟩ := before q live
    exact (congrArg ThreadProc.size slot).trans_le (h.small q live')
  · have free' : s.threads.kmem.held = false := by
      cases held : s.threads.kmem.held with
      | false => rfl
      | true => exact absurd (locked held) (by rw [show kmem.held = false from free]; nofun)
    obtain ⟨pgt, brk, mapped⟩ := h.mapped free'
    refine ⟨pgt, brk, mapped.table, mapped.maps, mapped.long, mapped.small, few pgt mapped.table, fun q live => ?_, ?_⟩
    · obtain ⟨live', slot⟩ := before q live
      exact (congrArg ThreadProc.size slot).trans_le (mapped.sizes q live')
    · rcases mapped.last with ⟨none, all⟩ | some
      · refine .inl ⟨none, fun q live => ?_⟩
        obtain ⟨live', slot⟩ := before q live
        exact (congrArg ThreadProc.size slot).trans (all q live')
      · exact .inr some

/-- The group before its first `clone`. -/
theorem Alone.shared (alone : Alone id s.threads p) (none : s.ranges = []) : Shared id s := by
  obtain ⟨pgt, has, image, long, -⟩ := alone.right
  have table : s.threads.tables id = some pgt := by
    have behind : (s.threads.procs p).pgt.bind s.threads.tables = some pgt := has
    rwa [alone.member.2] at behind
  have few := alone.few
  have part : pgt.pages ≤ (s.threads.space p).pages := by
    rw [UserProc.pages, has, Option.elim_some]
    exact Nat.le_add_left ..
  have sizes : ∀ q, Member id s.threads q → (s.threads.procs q).size = (s.threads.procs p).size := fun q live => by rw [alone.only q live]
  have small : (s.threads.procs p).size ≤ 2 ^ 32 := by
    unfold bootPages at few
    exact (size_le_memory alone.small (by simp only [Threads.space] at long; omega)).trans (by decide)
  refine ⟨by rw [none]; exact .nil, alone.next, fun q live => (sizes q live).trans_le small, fun _ => ?_⟩
  exact ⟨pgt, (s.threads.procs p).size, table, image, long, alone.small, by omega, fun q live => (sizes q live).le, .inl ⟨none, sizes⟩⟩

end Steps

section Runs
variable {id : Nat} {s t : Sharing}

theorem Shared.step {call : ShareCall} (h : Shared id s) (newest : Newest s call) (step : (sharing id).step s call = some t) : Shared id t := by
  have step : (if call.enabled id s.threads then (call.run s).toOption else none) = some t := step
  split at step
  case isFalse => cases step
  case isTrue enabled =>
  cases call with
  | clone p =>
    simp only [ShareCall.run] at step
    cases run : Thread.clone p s.threads with
    | error e =>
      rw [run] at step
      cases step
    | ok r =>
      rw [run] at step
      cases step
      exact clone_shared h enabled _ _ run
  | sbrk p incr =>
    simp only [ShareCall.run] at step
    cases run : Thread.sbrk p incr s.threads with
    | error e =>
      rw [run] at step
      cases step
    | ok r =>
      rw [run] at step
      cases step
      exact (sbrk_shared h enabled.1 enabled.2 newest).1 _ _ run
  | others kmem procs =>
    cases step
    exact others_shared h enabled

/-- **No address is returned twice** to a group of processes that share a table, and none of their calls
panics, when each call takes in with its size all that has been returned. -/
theorem breaks_apart (via : (sharing id).Via Newest s) : s.ranges.Pairwise Span.Apart ∧ ∀ p incr, (ShareCall.sbrk p incr).enabled id s.threads →
    Newest s (.sbrk p incr) → sbrk p incr s.threads ≠ .error (.panic "this entry has been used") := by
  have h : Shared id s := by
    apply via.invariant
    · rintro s ⟨⟨p, alone⟩, none⟩
      exact alone.shared none
    · exact fun s call t h newest step => h.step newest step
  refine ⟨h.apart, fun p incr enabled newest fails => ?_⟩
  exact not_used_panic ((sbrk_shared h enabled.1 enabled.2 newest).2 _ fails) rfl

theorem oneProcess_alone {u : Threads} (boot : oneProcess = some u) : Alone 0 u 0 := by
  obtain ⟨pgt, slots, table, next, free, image, pages⟩ := oneProcess_image boot
  have only : ∀ p, (oneSlot p).state = .RUNNABLE → p = 0 := by decide +kernel
  have space : u.space 0 = { state := .RUNNABLE, pid := 0, kstack := some 0x40015, pgt := some pgt, size := 0 } := by
    rw [Threads.space, slots, show (oneSlot 0).pgt = some 0 from rfl, Option.bind_some, table]
    rfl
  have zero : PAGEROUNDUP 0 / PAGESIZE = 0 := by decide
  refine ⟨?_, fun q live => ?_, by omega, ⟨pgt, by rw [space], ?_, ?_, ?_⟩, ?_, ?_⟩
  · rw [Member, slots]
    decide
  · rw [Member, slots] at live
    exact only q live.1
  · rw [space]
    show pgt.Maps (Image (PAGEROUNDUP 0 / PAGESIZE))
    rwa [zero]
  · rw [space]
    show PAGEROUNDUP 0 / PAGESIZE ≤ pgt.pages
    omega
  · rw [space]
    show (0 : Nat) < U64
    decide
  · rw [slots]
    decide
  · rw [space, UserProc.pages, Option.elim_some, Option.elim_some]
    unfold bootPages
    omega

/-- The process grows by a page, clones itself, and grows by another one. -/
theorem breaks_apart_grown : ∃ s : Sharing, s.ranges.Pairwise Span.Apart ∧ s.ranges = [(0x2000, 0x1000), (0x1000, 0x1000)] := by
  have run : (oneProcess.bind fun u => ((sharing 0).runIf Newest ⟨u, []⟩ [.sbrk 0 0x1000#32, .clone 0, .sbrk 0 0x1000#32]).map fun s =>
      decide (s.ranges = [(0x2000, 0x1000), (0x1000, 0x1000)])) = some true := by decide +kernel
  obtain ⟨u, boot, rest⟩ := Option.bind_eq_some_iff.1 run
  obtain ⟨s, calls, shown⟩ := Option.map_eq_some_iff.1 rest
  have start : (sharing 0).init ⟨u, []⟩ := ⟨⟨0, oneProcess_alone boot⟩, rfl⟩
  exact ⟨s, (breaks_apart ((System.Via.init start).runIf calls)).1, of_decide_eq_true shown⟩

/-- It clones itself, and both grow by a page: the second call of `sbrk` maps the page of the first. -/
theorem second_sbrk_panics : ∃ s : Sharing, (sharing 0).Reach s ∧ (ShareCall.sbrk 1 0x1000#32).enabled 0 s.threads ∧
    sbrk 1 0x1000#32 s.threads = .error (.panic "this entry has been used") := by
  have run : (oneProcess.bind fun u => ((sharing 0).run ⟨u, []⟩ [.clone 0, .sbrk 0 0x1000#32]).map fun s =>
      decide ((ShareCall.sbrk 1 0x1000#32).enabled 0 s.threads) &&
        match sbrk 1 0x1000#32 s.threads with
        | .error (.panic msg) => msg == "this entry has been used"
        | _ => false) = some true := by decide +kernel
  obtain ⟨u, boot, rest⟩ := Option.bind_eq_some_iff.1 run
  obtain ⟨s, calls, shown⟩ := Option.map_eq_some_iff.1 rest
  obtain ⟨enabled, panics⟩ := Bool.and_eq_true_iff.1 shown
  have start : (sharing 0).init ⟨u, []⟩ := ⟨⟨0, oneProcess_alone boot⟩, rfl⟩
  refine ⟨s, System.Via.run (System.Via.init start) calls, of_decide_eq_true enabled, ?_⟩
  split at panics
  case h_1 msg fails => rw [fails, eq_of_beq panics]
  case h_2 => cases panics

end Runs

end Aarch64Os.Kernel.Thread
