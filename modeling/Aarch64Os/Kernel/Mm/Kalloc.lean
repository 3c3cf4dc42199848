import Aarch64Os.Base.Ends
import Aarch64Os.Kernel.Fs

/-!
# The page allocator (`kernel/kalloc.c`)

The free pages form a list, and a call takes or returns its head under `kallocator.lk`. A call
that finds the list empty returns without releasing the lock. What is in a page is left out:
nothing modelled depends on it.
-/

namespace Aarch64Os.Kernel
set_option autoImplicit false
open Base

/-- `PAGESIZE`. -/
abbrev PAGESIZE : Nat := 4096

/-- A page of RAM, from `PKERNBASE` on. -/
def InRam (page : Nat) : Prop := 0x40000000 ≤ page * PAGESIZE ∧ page * PAGESIZE < 0x50000000

instance (page : Nat) : Decidable (InRam page) := inferInstanceAs (Decidable (_ ∧ _))

/-- `kallocator`: the free pages, and whether its lock has been left held. -/
structure Kallocator where
  freelist : List PageNo
  held : Bool

/-- A kernel function that allocates or frees pages. -/
abbrev MmM := StateT Kallocator (Except Fault)

/-- `acquire(&kallocator.lk)`, when no other call is under way. -/
def acquireKallocator : MmM Unit := do
  let s ← get
  if s.held then throw (.panic "already held") else pure ()

/-- `kalloc`. -/
def kalloc : MmM (Option PageNo) := do
  acquireKallocator
  let s ← get
  match s.freelist with
  | [] =>
    set { s with held := true }
    pure none
  | new :: next =>
    set { s with freelist := next }
    pure (some new)

/-- `kfree` of a page. -/
def kfree (page : PageNo) : MmM Unit := do
  acquireKallocator
  modify fun s => { s with freelist := page :: s.freelist }

/-- How many pages are free. -/
def Kallocator.free (s : Kallocator) : Nat := s.freelist.length

/-- The messages of `pagemap` and `pageunmap`. -/
def pagePanics : List String := ["invalid pagemap", "this entry has been used", "invalid pageunmap", "bad unmap"]

/-- `pagemap` or `pageunmap` has stopped the kernel. -/
def PagePanic (e : Fault) : Prop := ∃ msg ∈ pagePanics, e = .panic msg

theorem not_pagePanic_undefined : ¬ PagePanic .undefined := nofun

theorem not_pagePanic_hang : ¬ PagePanic .hang := nofun

theorem not_pagePanic_held : ¬ PagePanic (.panic "already held") := by
  rintro ⟨msg, mem, same⟩
  cases same
  revert mem
  decide

theorem acquireKallocator_ends (s : Kallocator) : Ends PagePanic acquireKallocator s fun _ t => t = s := by
  unfold acquireKallocator
  apply Ends.step (get_runs s)
  split
  · exact Ends.throw not_pagePanic_held
  · exact Ends.pure rfl

/-- `kalloc` takes a page, or there was none. -/
theorem kalloc_ends (s : Kallocator) : Ends PagePanic kalloc s fun page t =>
    t.free + (page.elim 0 fun _ => 1) = s.free ∧ (page = none ↔ s.free = 0) := by
  unfold kalloc
  apply (acquireKallocator_ends s).bind
  rintro _ t rfl
  apply Ends.step (get_runs t)
  cases list : t.freelist with
  | nil =>
    apply Ends.step (set_runs ..)
    exact Ends.pure (by simp [Kallocator.free, list])
  | cons new next =>
    apply Ends.step (set_runs ..)
    exact Ends.pure (by simp [Kallocator.free, list])

/-- `kfree` returns one. -/
theorem kfree_ends (s : Kallocator) (page : PageNo) : Ends PagePanic (kfree page) s fun _ t => t.free = s.free + 1 := by
  unfold kfree
  apply (acquireKallocator_ends s).bind
  rintro _ t rfl
  constructor
  · intro _ u run
    cases run
    rfl
  · intro e fails
    cases fails

end Aarch64Os.Kernel
