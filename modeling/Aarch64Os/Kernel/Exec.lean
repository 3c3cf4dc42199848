import Aarch64Os.Base.ByteMem
import Aarch64Os.Kernel.Mm.PageCount

/-!
# `exec` with what is in the pages (`kernel/proc.c`, `kernel/mm.c`, `kernel/elf.c`)

`exec` parses an ELF file, fills the pages of a new page table through the physical addresses
these map, copies the arguments to the stack page, and only then frees the old address space.
What reading the file gives is a parameter. The part of `exec` up to its last `goto fail` is a
function of its own, and what is behind it another.
-/

namespace Aarch64Os.Kernel.Exec
set_option autoImplicit false
open Base

/-- A byte. -/
abbrev Byte := BitVec 8

/-- What `read_inode` gives for an offset and a size: its result, and the bytes it has put
into the buffer. -/
abbrev Reader := Nat → Nat → Int × List Byte

/-- A string, without its NUL. -/
abbrev CStr := { s : List Byte // (0 : Byte) ∉ s }

/-- What `exec` writes of a `struct trapframe`. -/
structure Trapframe where
  x1 : Nat
  elr : Nat
  spsr : Nat
  sp : Nat

/-- What `exec` writes of a `struct proc`. -/
structure Image where
  pgt : PageTable
  size : Nat
  tf : Trapframe

/-- The allocator, physical memory, `myproc()`, and the table that is loaded. A page that holds a
table is not read from `mem`: the table has what is in it. -/
structure State where
  kmem : Kallocator
  mem : ByteMem
  proc : Image
  ttbr0 : Nat

/-- A kernel function over the memory. -/
abbrev ExM := StateT State (Except Fault)

/-- Memory after the allocator was `k` and then `k'`: `kalloc` clears the page it hands out, and
`kfree` the one it takes back. What a free page has in it but zeros is its link. -/
def clear (k k' : Kallocator) (mem : ByteMem) : ByteMem := fun a =>
  if a / PAGESIZE ∈ k.freelist ∨ a / PAGESIZE ∈ k'.freelist then 0 else mem a

/-- A function is called that takes and returns pages. -/
def onPages {α : Type} (f : MmM α) : ExM α := fun s =>
  (f s.kmem).map fun r => (r.1, { s with kmem := r.2, mem := clear s.kmem r.2 s.mem })

/-- `memcpy` to a physical address. -/
def memcpy (dst : Nat) (src : List Byte) : ExM Unit := modify fun s => { s with mem := s.mem.store dst src }

/-- The loop of `load_prg`. -/
def loadPages (read : Reader) (va srcoff filesz : Nat) : Nat → PageTable → Nat → ExM (Int × PageTable)
  | 0, _, _ => throw .hang
  | left + 1, pgt, p =>
    if p < filesz then do
      let (pa, pgt) ← onPages (uva2pa pgt ((va + p) % U64))
      if pa = 0 then pure (-1, pgt)
      else
        let cpsz := if filesz - p < PAGESIZE then filesz - p else PAGESIZE
        let (n, bytes) := read ((srcoff + p) % U64) cpsz
        memcpy pa bytes
        if n ≠ cpsz then pure (-1, pgt) else loadPages read va srcoff filesz left pgt ((p + PAGESIZE) % U64)
    else pure (0, pgt)

/-- `load_prg`. -/
def loadPrg (pgt : PageTable) (va : Nat) (read : Reader) (srcoff filesz : Nat) : ExM (Int × PageTable) :=
  if va % PAGESIZE ≠ 0 then pure (-1, pgt) else loadPages read va srcoff filesz (filesz / PAGESIZE + 2) pgt 0

/-- `ET_EXEC`. -/
def ET_EXEC : Nat := 2

/-- A `struct ehdr`. -/
structure Ehdr where
  e_ident : List Byte
  e_type : Nat
  e_entry : Nat
  e_phoff : Nat
  e_phnum : Nat

/-- `sizeof(struct ehdr)`. -/
def Ehdr.sizeof : Nat := 64

/-- An `ehdr` in its bytes. -/
def Ehdr.decode (buf : List Byte) : Ehdr where
  e_ident := buf.take 16
  e_type := leField buf 16 2
  e_entry := leField buf 24 8
  e_phoff := leField buf 32 8
  e_phnum := leField buf 56 2

/-- `is_elf`. -/
def Ehdr.isElf (eh : Ehdr) : Bool := eh.e_ident.take 4 = [0x7f, 0x45, 0x4c, 0x46]

/-- A `struct phdr`, of a segment of the file. -/
structure Segment where
  p_type : Nat
  p_offset : Nat
  p_vaddr : Nat
  p_filesz : Nat
  p_memsz : Nat

/-- `sizeof(struct phdr)`. -/
def Segment.sizeof : Nat := 56

/-- A `phdr` in its bytes. -/
def Segment.decode (buf : List Byte) : Segment where
  p_type := leField buf 0 4
  p_offset := leField buf 8 8
  p_vaddr := leField buf 16 8
  p_filesz := leField buf 32 8
  p_memsz := leField buf 40 8

/-- The header of the file, when it can be read and is that of an executable. -/
def readEhdr (read : Reader) : Option Ehdr :=
  let (n, buf) := read 0 Ehdr.sizeof
  let eh := Ehdr.decode buf
  if n ≠ Ehdr.sizeof then none else if !eh.isElf then none else if eh.e_type ≠ ET_EXEC then none else some eh

/-- The program header at an offset, when it can be read. -/
def readPhdr (read : Reader) (off : Nat) : Option Segment :=
  let (n, buf) := read off Segment.sizeof
  if n ≠ Segment.sizeof then none else some (Segment.decode buf)

/-- The loop of `exec` over the headers, of which `left` are to come: the sum of the sizes, or
nothing when it fails. -/
def execHeaders (read : Reader) : Nat → Nat → PageTable → Nat → ExM (Option Nat × PageTable)
  | 0, _, pgt, memsize => pure (some memsize, pgt)
  | left + 1, off, pgt, memsize =>
    match readPhdr read off with
    | none => pure (none, pgt)
    | some ph =>
      if ph.p_type ≠ PT_LOAD then execHeaders read left ((off + Segment.sizeof) % U64) pgt memsize
      else do
        let (sz, pgt) ← onPages (allocUserspace pgt ph.p_vaddr ph.p_memsz)
        if sz < 0 then pure (none, pgt)
        else
          let (r, pgt) ← loadPrg pgt ph.p_vaddr read ph.p_offset ph.p_filesz
          if r < 0 then pure (none, pgt)
          else execHeaders read left ((off + Segment.sizeof) % U64) pgt ((memsize + sz.toNat) % U64)

/-- The loop of `exec` over the arguments, with `sp` as an offset into the stack page at `base`:
where `sp` is left, and `ustack`. -/
def pushStrings (base : Nat) : List CStr → Int → List Nat → ExM (Option (Int × List Nat))
  | [], sp, ustack => pure (some (sp, ustack))
  | arg :: argv, sp, ustack =>
    let sp := (sp - (arg.1.length + 1)) / 16 * 16
    if ustack.length ≥ 8 then pure none
    else if sp < 0 then pure none
    else do
      memcpy (base + sp.toNat) arg.1
      pushStrings base argv sp (ustack ++ [USTACKTOP - (PAGESIZE - sp.toNat)])

/-- The stack `exec` builds: `argc` and `sp`, if it fits. -/
def pushArgs (base : Nat) (argv : List CStr) : ExM (Option (Nat × Nat)) := do
  match ← pushStrings base argv PAGESIZE [] with
  | none => pure none
  | some (sp, ustack) =>
    let argc := ustack.length
    let ustack := ustack ++ [0]
    let sp := (sp - 8 * (argc + 1)) / 16 * 16
    if sp < 0 then pure none
    else do
      memcpy (base + sp.toNat) (ustack.flatMap (leBytes 8))
      pure (some (argc, USTACKTOP - (PAGESIZE - sp.toNat)))

/-- What `exec` has built when it can fail no more. -/
structure Built where
  pgt : PageTable
  memsize : Nat
  entry : Nat
  argc : Nat
  sp : Nat

/-- `exec` up to the stack, which it maps behind the headers: the sum of the sizes and the stack page,
or nothing when a header makes it fail. -/
def execMap (read : Reader) (eh : Ehdr) (page : PageNo) : ExM (Option (Nat × Pte) × PageTable) := do
  let (loaded, pgt) ← execHeaders read eh.e_phnum eh.e_phoff (Table.empty page) 0
  match loaded with
  | none => pure (none, pgt)
  | some memsize =>
    let (mapped, pgt) ← onPages (mapUstack pgt)
    -- a page that has not been mapped is the null pointer
    match if mapped then pgt.pte USTACKBOTTOM else none with
    | none => throw .undefined
    | some stack => pure (some (memsize, stack), pgt)

/-- `exec` up to its last `goto fail`, in which case it gives the table to free. A null `argv` is
one without strings. -/
def execBuild (file : Option Reader) (argv : Option (List CStr)) : ExM (Except (Option PageNo) Built) :=
  match file with
  | none => pure (.error none)
  | some read =>
    match readEhdr read with
    | none => pure (.error none)
    | some eh => do
      let page ← onPages kalloc
      match page with
      | none => pure (.error none)
      | some page =>
        let (mapped, pgt) ← execMap read eh page
        match mapped with
        | none => pure (.error (some pgt.name))
        | some (memsize, stack) =>
          let args ← pushArgs (stack.page * PAGESIZE) (argv.getD [])
          match args with
          | none => pure (.error (some pgt.name))
          | some (argc, sp) => pure (.ok { pgt, memsize, entry := eh.e_entry, argc, sp })

/-- `exec` behind it. -/
def execCommit (new : Built) : ExM Int := do
  let s ← get
  onPages (freeUserspace s.proc.pgt s.proc.size)
  modify fun s => { s with
    proc := { pgt := new.pgt, size := new.memsize, tf := { x1 := new.sp, elr := new.entry, spsr := 0, sp := new.sp } }
    ttbr0 := new.pgt.name * PAGESIZE }
  pure new.argc

/-- `exec` of the file that `path2inode` has found. -/
def exec (file : Option Reader) (argv : Option (List CStr)) : ExM Int := do
  match ← execBuild file argv with
  | .ok new => execCommit new
  | .error none => pure (-1)
  | .error (some pgt) =>
    onPages (kfree pgt)
    pure (-1)

end Aarch64Os.Kernel.Exec
