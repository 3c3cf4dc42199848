import Aarch64Os.Kernel.Mm.Userspace

/-!
# Page tables in physical memory (`kernel/mm.c`, `kernel/kalloc.c`)

The functions of `mm.c` on the words they read and write. A table is a page of 512 entries of 64 bits,
and what an entry is, a table, a page or nothing, is told from its bits alone. A pointer to a page is
the number of the page: `P2V` and `V2P` take one to the other.
-/

namespace Aarch64Os.Kernel.Words
set_option autoImplicit false
open Base

/-- The words of physical memory, page by page. -/
abbrev Memory := PageNo → Fin 512 → BitVec 64

/-- Physical memory and the allocator. -/
structure Ram where
  kmem : Kallocator
  word : Memory

/-- A kernel function over the memory. -/
abbrev RamM := StateT Ram (Except Fault)

/-- `PTE_VALID`. -/
def PTE_VALID : BitVec 64 := 1#64

/-- `PTE_TABLE`. -/
def PTE_TABLE : BitVec 64 := 2#64

/-- `PTE_V`. -/
def PTE_V : BitVec 64 := 3#64

/-- `PTE_AF`. -/
def PTE_AF : BitVec 64 := 1#64 <<< 10

/-- `PTE_PA`. -/
def PTE_PA (pte : BitVec 64) : BitVec 64 := pte &&& 0xfffffffff000#64

/-- `P2V(PTE_PA(pte))`, a page. -/
def pageOf (pte : BitVec 64) : PageNo := (PTE_PA pte).toNat / PAGESIZE

/-- `P2V` of a page, as it stands in memory. -/
def P2V (page : PageNo) : BitVec 64 := BitVec.ofNat 64 (page * PAGESIZE) + 0xffffff8000000000#64

/-- The test of `pagewalk` for a table. -/
def isTable (pte : BitVec 64) : Bool := pte &&& PTE_VALID ≠ 0#64 ∧ pte &&& PTE_TABLE ≠ 0#64

/-- The entry `pagewalk` makes of a table. -/
def tableEntry (page : PageNo) : BitVec 64 := PTE_PA (BitVec.ofNat 64 (page * PAGESIZE)) ||| PTE_TABLE ||| PTE_VALID

/-- The entry `pagemap` makes of a physical address. -/
def leafEntry (pa : Nat) (attr : BitVec 64) : BitVec 64 := PTE_PA (BitVec.ofNat 64 pa) ||| PTE_AF ||| attr ||| PTE_V

/-- Memory after `memcpy` to a page. -/
def Ram.fill (s : Ram) (page : PageNo) (words : Fin 512 → BitVec 64) : Ram := { s with word := Function.update s.word page words }

/-- Memory after `*pte = w`, for the entry `i` of a table. -/
def Ram.set (s : Ram) (pgt : PageNo) (i : Fin 512) (w : BitVec 64) : Ram := s.fill pgt (Function.update (s.word pgt) i w)

@[simp] theorem Ram.fill_kmem (s : Ram) (page : PageNo) (words : Fin 512 → BitVec 64) : (s.fill page words).kmem = s.kmem := rfl

@[simp] theorem Ram.fill_self (s : Ram) (page : PageNo) (words : Fin 512 → BitVec 64) : (s.fill page words).word page = words :=
  Function.update_self ..

theorem Ram.fill_ne (s : Ram) {page other : PageNo} (words : Fin 512 → BitVec 64) (ne : other ≠ page) :
    (s.fill page words).word other = s.word other :=
  Function.update_of_ne ne ..

@[simp] theorem Ram.set_kmem (s : Ram) (pgt : PageNo) (i : Fin 512) (w : BitVec 64) : (s.set pgt i w).kmem = s.kmem := rfl

@[simp] theorem Ram.set_self (s : Ram) (pgt : PageNo) (i : Fin 512) (w : BitVec 64) :
    (s.set pgt i w).word pgt = Function.update (s.word pgt) i w :=
  Function.update_self ..

theorem Ram.set_ne (s : Ram) {pgt other : PageNo} (i : Fin 512) (w : BitVec 64) (ne : other ≠ pgt) :
    (s.set pgt i w).word other = s.word other :=
  Function.update_of_ne ne ..

/-- `memcpy` to a page. -/
def setPage (page : PageNo) (words : Fin 512 → BitVec 64) : RamM Unit := modify fun s => s.fill page words

/-- `*pte = w`. -/
def setEntry (pgt : PageNo) (i : Fin 512) (w : BitVec 64) : RamM Unit := modify fun s => s.set pgt i w

/-- `kalloc`: the page that comes off the free list is cleared. -/
def kalloc : RamM (Option PageNo) := fun s =>
  (Kernel.kalloc s.kmem).map fun r =>
    (r.1, { kmem := r.2, word := r.1.elim s.word fun page => Function.update s.word page fun _ => 0#64 })

/-- `kfree`: the page is cleared, but for its link to the one that was first on the list. -/
def kfree (page : PageNo) : RamM Unit := fun s =>
  (Kernel.kfree page s.kmem).map fun r =>
    (r.1, { kmem := r.2, word := Function.update s.word page fun i => if i = 0 then s.kmem.freelist.head?.elim 0#64 P2V else 0#64 })

/-- The loop of `pagewalk` over the levels: the table it comes to. -/
def walkLevels (va : Nat) : List Nat → PageNo → RamM (Option PageNo)
  | [], pgt => pure (some pgt)
  | level :: levels, pgt => do
    let s ← get
    if isTable (s.word pgt (PIDX level va)) then walkLevels va levels (pageOf (s.word pgt (PIDX level va)))
    else
      let new ← kalloc
      match new with
      | none => pure none
      | some new =>
        setEntry pgt (PIDX level va) (tableEntry new)
        walkLevels va levels new

/-- `pagewalk`: the third-level table, in which the entry is the one of index `PIDX 3 va`. -/
def pagewalk (pgt : PageNo) (va : Nat) : RamM (Option PageNo) := walkLevels va [1, 2] pgt

/-- `pagewalk`, where the caller uses the entry without a check. -/
def pagewalkDeref (pgt : PageNo) (va : Nat) : RamM PageNo := do
  let l3 ← pagewalk pgt va
  match l3 with
  | none => throw .undefined
  | some l3 => pure l3

/-- The loop of `pagemap`; `left` pages are to come. -/
def mapPages (attr : BitVec 64) : Nat → PageNo → Nat → Nat → RamM Unit
  | 0, _, _, _ => pure ()
  | left + 1, pgt, va, pa => do
    let l3 ← pagewalkDeref pgt va
    let s ← get
    if s.word l3 (PIDX 3 va) &&& PTE_AF ≠ 0#64 then throw (.panic "this entry has been used")
    else
      setEntry l3 (PIDX 3 va) (leafEntry pa attr)
      mapPages attr left pgt ((va + PAGESIZE) % U64) ((pa + PAGESIZE) % U64)

/-- `pagemap`. -/
def pagemap (pgt : PageNo) (va pa size : Nat) (attr : BitVec 64) : RamM Unit :=
  if va % PAGESIZE ≠ 0 ∨ pa % PAGESIZE ≠ 0 ∨ size % PAGESIZE ≠ 0 then throw (.panic "invalid pagemap")
  else mapPages attr (size / PAGESIZE) pgt va pa

/-- The loop of `pageunmap`. -/
def unmapPages : Nat → PageNo → Nat → RamM Unit
  | 0, _, _ => pure ()
  | left + 1, pgt, va => do
    let l3 ← pagewalkDeref pgt va
    let s ← get
    if s.word l3 (PIDX 3 va) = 0#64 then throw (.panic "bad unmap")
    else
      kfree (pageOf (s.word l3 (PIDX 3 va)))
      setEntry l3 (PIDX 3 va) 0#64
      unmapPages left pgt ((va + PAGESIZE) % U64)

/-- `pageunmap`. -/
def pageunmap (pgt : PageNo) (va size : Nat) : RamM Unit :=
  if va % PAGESIZE ≠ 0 ∨ size % PAGESIZE ≠ 0 then throw (.panic "invalid pageunmap")
  else unmapPages (size / PAGESIZE) pgt va

/-- A round of the loop of `free_table`, with the recursive call. -/
def freeEntry (free : PageNo → RamM Unit) (pgt : PageNo) (i : Fin 512) : RamM Unit := do
  let s ← get
  let pte := s.word pgt i
  if isTable pte ∧ pte &&& PTE_AF = 0#64 then
    free (pageOf pte)
    setEntry pgt i 0#64
  else pure ()

/-- `free_table`, as long as its recursion is not deeper than `depth`. -/
def freeTable : Nat → PageNo → RamM Unit
  | 0, _ => throw .hang
  | depth + 1, pgt => do
    (List.finRange 512).forM (freeEntry (freeTable depth) pgt)
    kfree pgt

/-- `free_userspace`. -/
def freeUserspace (depth : Nat) (pgt : PageNo) (size : Nat) : RamM Unit := do
  pageunmap pgt 0x1000 (PAGEROUNDUP size)
  pageunmap pgt USTACKBOTTOM PAGESIZE
  freeTable depth pgt

/-- The loop of `grow_userspace`: whether it has come to its end. -/
def allocPages (attr : BitVec 64) (size : Nat) : Nat → PageNo → Nat → Nat → RamM Bool
  | 0, _, _, _ => throw .hang
  | left + 1, pgt, va, p =>
    if p < size then do
      let upage ← kalloc
      match upage with
      | none => pure false
      | some upage =>
        pagemap pgt va (upage * PAGESIZE) PAGESIZE attr
        allocPages attr size left pgt ((va + PAGESIZE) % U64) ((p + PAGESIZE) % U64)
    else pure true

/-- `grow_userspace`. -/
def growUserspace (pgt : PageNo) (va oldsz newsz : Nat) : RamM (Option Nat) := do
  let start := (va + oldsz) % U64
  let oldsz := PAGEROUNDUP oldsz
  let s ← get
  let done ← allocPages (PTE_NORMAL ||| PTE_U ||| PTE_UXN ||| PTE_PXN) newsz (s.kmem.free + 1) pgt ((va + oldsz) % U64) oldsz
  pure (if done then some start else none)

/-- A round of the loop of `cp_userspace`, and what it does to the stack: a page of the old table is
copied to a new one, which the new table maps. -/
def copyPage (attr : BitVec 64) (newpgt oldpgt : PageNo) (va : Nat) : RamM Bool := do
  let l3 ← pagewalkDeref oldpgt va
  let s ← get
  let pa := pageOf (s.word l3 (PIDX 3 va))
  let page ← kalloc
  match page with
  | none => pure false
  | some page =>
    let s ← get
    setPage page (s.word pa)
    pagemap newpgt va (page * PAGESIZE) PAGESIZE attr
    pure true

/-- The loop of `cp_userspace`. -/
def copyPages (size : Nat) : Nat → PageNo → PageNo → Nat → Nat → RamM Bool
  | 0, _, _, _, _ => throw .hang
  | left + 1, newpgt, oldpgt, va, p =>
    if p < size then do
      let copied ← copyPage (PTE_NORMAL ||| PTE_U) newpgt oldpgt va
      if !copied then pure false
      else copyPages size left newpgt oldpgt ((va + PAGESIZE) % U64) ((p + PAGESIZE) % U64)
    else pure true

/-- `cp_userspace`. -/
def cpUserspace (newpgt oldpgt : PageNo) (va size : Nat) : RamM Int := do
  let s ← get
  let done ← copyPages size (s.kmem.free + 1) newpgt oldpgt va 0
  if !done then pure (-1)
  else
    let copied ← copyPage (PTE_NORMAL ||| PTE_U ||| PTE_UXN ||| PTE_PXN) newpgt oldpgt USTACKBOTTOM
    pure (if copied then 0 else -1)

/-- What the hardware finds for a user address: the physical one, and the bits of the entry that are no
address. The first two levels of a user table have no blocks. -/
def Memory.translate (word : Memory) (root : PageNo) (va : Nat) : Option (Nat × BitVec 64) :=
  let l1 := word root (PIDX 1 va)
  if isTable l1 then
    let l2 := word (pageOf l1) (PIDX 2 va)
    if isTable l2 then
      let pte := word (pageOf l2) (PIDX 3 va)
      if pte &&& PTE_V = PTE_V ∧ pte &&& PTE_AF ≠ 0#64 then some ((PTE_PA pte).toNat + va % PAGESIZE, pte &&& ~~~0xfffffffff000#64)
      else none
    else none
  else none

end Aarch64Os.Kernel.Words
