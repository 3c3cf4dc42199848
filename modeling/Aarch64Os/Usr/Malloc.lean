import Mathlib
import Aarch64Os.Base.Ends
import Aarch64Os.Base.Tiling

/-!
# The user heap (`usr/malloc.c`)

`malloc` and `free` keep the free blocks in a ring that begins at a block without length. Addresses
are in bytes, sizes in units of 16 bytes, the size of a header.
-/

namespace Aarch64Os.Usr
set_option autoImplicit false
open Base

/-- `union memhdr`. -/
structure Memhdr where
  ptr : Nat
  size : Nat
  deriving DecidableEq

/-- How a call may fail to return: with an access outside `base` and the memory from `sbrk`, or in
a loop that never ends. -/
inductive Stop
  | undefined
  | hang
  deriving DecidableEq

/-- Where `base` is, and what `sbrk` answers to its `k`th call, with 0 for `NULL`. -/
structure Env where
  base : Nat
  sbrk : Nat → Int → Nat
  base_pos : base ≠ 0

/-- The headers in memory, `freep`, and the memory that `sbrk` has returned, as bytes, with the
number of calls. -/
structure Heap where
  hdr : Nat → Memhdr
  freep : Nat
  regions : List Span
  calls : Nat

abbrev HeapM := StateT Heap (Except Stop)

/-- A header at `a` is `base`, or in memory from `sbrk`. -/
def Heap.Owned (s : Heap) (base a : Nat) : Prop := a = base ∨ ∀ k < 16, ∃ r ∈ s.regions, r.1 ≤ a + k ∧ a + k < r.1 + r.2

instance (s : Heap) (base a : Nat) : Decidable (s.Owned base a) := inferInstanceAs (Decidable (_ ∨ _))

/-- The length of all memory from `sbrk`. -/
def Heap.total (s : Heap) : Nat := (s.regions.map Prod.snd).sum

/-- `MINALLOC`. -/
def MINALLOC : Nat := 512

section Calls
variable (env : Env)

/-- Read the header at `a`. -/
def load (a : Nat) : HeapM Memhdr := do
  let s ← get
  if s.Owned env.base a then pure (s.hdr a) else throw .undefined

/-- Write the header at `a`. -/
def store (a : Nat) (h : Memhdr) : HeapM Unit := do
  let s ← get
  if s.Owned env.base a then set { s with hdr := Function.update s.hdr a h } else throw .undefined

/-- A call of `sbrk`. -/
def sbrk (incr : Int) : HeapM Nat := do
  let s ← get
  let p := env.sbrk s.calls incr
  set { s with calls := s.calls + 1, regions := if p = 0 then s.regions else (p, incr.toNat) :: s.regions }
  pure p

/-- The loop of `free`: the free block before the one at `bp`. -/
def freeFrom (bp : Nat) : Nat → Nat → HeapM Nat
  | 0, _ => throw .hang
  | left + 1, p => do
    let h ← load env p
    if p < bp ∧ bp < h.ptr then pure p
    else if h.ptr ≤ p ∧ (p < bp ∨ bp < h.ptr) then pure p
    else freeFrom bp left h.ptr

/-- The block at `bp` takes in the free block behind it, if that touches it, or is linked to it. -/
def joinUp (p bp : Nat) : HeapM Unit := do
  let h ← load env p
  let b ← load env bp
  if bp + 16 * b.size = h.ptr then
    let next ← load env h.ptr
    store env bp { ptr := next.ptr, size := b.size + next.size }
  else store env bp { b with ptr := h.ptr }

/-- The free block at `p` takes in the block at `bp`, if that touches it, or is linked to it. -/
def joinDown (p bp : Nat) : HeapM Unit := do
  let h ← load env p
  let b ← load env bp
  if p + 16 * h.size = bp then store env p { ptr := b.ptr, size := h.size + b.size }
  else store env p { h with ptr := bp }

/-- `free`. There are no more free blocks than bytes, so more rounds of its loop go on for ever. -/
def free (ptr : Nat) : HeapM Unit := do
  if ptr = 0 then pure ()
  else
    let bp := ptr - 16
    let s ← get
    let p ← freeFrom env bp (s.total + 2) s.freep
    joinUp env p bp
    joinDown env p bp
    modify fun s => { s with freep := p }

/-- `morecore`. The product is an `int` of the caller's. -/
def morecore (nunits : Nat) : HeapM Nat := do
  let nunits := if MINALLOC > nunits then MINALLOC else nunits
  let up ← sbrk env (BitVec.ofNat 32 (16 * nunits)).toInt
  if up = 0 then pure 0
  else
    let h ← load env up
    store env up { h with size := nunits }
    free env (up + 16)
    let s ← get
    pure s.freep

/-- Take `nunits` units of the block at `p`, which is behind `prev` and has the header `h`. -/
def takeBlock (nunits prev p : Nat) (h : Memhdr) : HeapM Nat := do
  let q ← if h.size = nunits then do
      let before ← load env prev
      store env prev { before with ptr := h.ptr }
      pure p
    else do
      store env p { h with size := h.size - nunits }
      let q := p + 16 * (h.size - nunits)
      let tail ← load env q
      store env q { tail with size := nunits }
      pure q
  modify fun s => { s with freep := prev }
  pure (q + 16)

/-- The loop of `malloc`. -/
def mallocFrom (nunits : Nat) : Nat → Nat → Nat → HeapM Nat
  | 0, _, _ => throw .hang
  | left + 1, prev, p => do
    let h ← load env p
    if h.size ≥ nunits then takeBlock env nunits prev p h
    else
      let s ← get
      if p = s.freep then
        let p ← morecore env nunits
        if p = 0 then pure 0
        else
          let h ← load env p
          mallocFrom nunits left p h.ptr
      else mallocFrom nunits left p h.ptr

/-- The units of a request, with one for the header. -/
def units (nbytes : BitVec 64) : Nat := ((nbytes + 15#64) / 16#64 + 1#64).toNat

/-- The first call makes a ring of `base`. -/
def initRing : HeapM Unit := do
  let s ← get
  if s.freep = 0 then
    set { s with freep := env.base }
    store env env.base { ptr := env.base, size := 0 }

/-- `malloc`. -/
def malloc (nbytes : BitVec 64) : HeapM Nat := do
  if nbytes = 0 then pure 0
  else
    let nunits := units nbytes
    initRing env
    let s ← get
    let h ← load env s.freep
    mallocFrom env nunits (2 * (s.total + 16 * max nunits MINALLOC) + 4) s.freep h.ptr

end Calls

/-- A heap in use: the blocks that have been returned and not been freed, by the address of their
header and with the bytes asked for. -/
structure Program where
  heap : Heap
  live : List (Nat × BitVec 64)

/-- What a program does with its heap: the calls, and storing to a block, where this is seen as a
header at `a`. -/
inductive HeapCall
  | malloc (nbytes : BitVec 64)
  | free (ptr : Nat)
  | write (a : Nat) (h : Memhdr)

/-- `a` is inside a block in use, behind its header. -/
def Program.Inside (s : Program) (a : Nat) : Prop := ∃ b ∈ s.live, b.1 + 16 ≤ a ∧ a < b.1 + 16 * (s.heap.hdr b.1).size

instance (s : Program) (a : Nat) : Decidable (s.Inside a) := inferInstanceAs (Decidable (∃ _ ∈ _, _))

/-- A program frees what it was given, and stores to its own blocks. -/
def HeapCall.enabled (s : Program) : HeapCall → Prop
  | malloc _ => True
  | free ptr => ptr = 0 ∨ ∃ b ∈ s.live, ptr = b.1 + 16
  | write a _ => s.Inside a

instance (s : Program) (call : HeapCall) : Decidable (call.enabled s) := by
  cases call with
  | malloc => exact inferInstanceAs (Decidable True)
  | free ptr => exact inferInstanceAs (Decidable (_ ∨ _))
  | write a => exact inferInstanceAs (Decidable (s.Inside a))

/-- The call on the heap, and the blocks in use after it. -/
def HeapCall.run (env : Env) (s : Program) : HeapCall → Except Stop Program
  | malloc nbytes => (Usr.malloc env nbytes s.heap).map fun r =>
      { heap := r.2, live := if r.1 = 0 then s.live else (r.1 - 16, nbytes) :: s.live }
  | free ptr => (Usr.free env ptr s.heap).map fun r => { heap := r.2, live := s.live.filter fun b => b.1 + 16 ≠ ptr }
  | write a h => .ok { s with heap := { s.heap with hdr := Function.update s.heap.hdr a h } }

end Aarch64Os.Usr
