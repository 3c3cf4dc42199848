import Aarch64Os.Base.Transition
import Aarch64Os.Kernel.Mm.Userspace

/-!
# Address spaces of processes (`kernel/proc.c`)

The processes with their page tables and the free pages they share. `p->size` is the only record
of what is mapped: `fork` copies by it, `exec` and `exit` unmap by it, and `sbrk` changes it. Its
decrements unmap nothing, and it grows also when pages run out.

A process here is its own thread, so its table is a value of its slot; a table that has been
freed is gone. Each call is one step of the process that makes it.
-/

namespace Aarch64Os.Kernel
set_option autoImplicit false
open Base

/-- What `struct proc` says of an address space. -/
structure UserProc where
  state : ProcState
  pid : Int
  kstack : Option PageNo
  pgt : Option PageTable
  size : Nat

/-- A slot after `memset(p, 0, sizeof(*p))`. -/
def UserProc.zero : UserProc := { state := .UNUSED, pid := 0, kstack := none, pgt := none, size := 0 }

/-- `kallocator`, `proctable.procs` and `pidalloc.pid`. -/
structure Spaces where
  kmem : Kallocator
  procs : ProcId → UserProc
  nextpid : Int

/-- A kernel function over the processes. -/
abbrev SpM := StateT Spaces (Except Fault)

/-- A function of `mm.c` or `kalloc.c` is called. -/
def onKmem {α : Type} (f : MmM α) : SpM α := fun s => (f s.kmem).map fun r => (r.1, { s with kmem := r.2 })

/-- Change a slot. -/
def setProc (p : ProcId) (f : UserProc → UserProc) : SpM Unit :=
  modify fun s => { s with procs := Function.update s.procs p (f (s.procs p)) }

/-- `newproc`. -/
def newprocSpace : SpM (Option ProcId) := do
  let s ← get
  match (List.finRange NPROC).find? fun p => (s.procs p).state = .UNUSED with
  | none => pure none
  | some p =>
    setProc p fun q => { q with state := .CREATED, pid := s.nextpid }
    modify fun s => { s with nextpid := s.nextpid + 1 }
    let kstack ← onKmem kalloc
    setProc p fun q => { q with kstack := kstack }
    if kstack.isNone then pure none
    else
      let pgt ← onKmem kalloc
      setProc p fun q => { q with pgt := pgt.map Table.empty }
      pure (pgt.map fun _ => p)

/-- `freeproc`. -/
def freeprocSpace (p : ProcId) : SpM Unit := do
  let s ← get
  match (s.procs p).kstack with
  | none => pure ()
  | some page => onKmem (kfree page)
  setProc p fun _ => UserProc.zero

/-- `p->pgt`, used without a check. -/
def pgtOf (p : ProcId) : SpM PageTable := do
  let s ← get
  match (s.procs p).pgt with
  | none => throw .undefined
  | some pgt => pure pgt

/-- `fork`. -/
def forkSpace (p : ProcId) : SpM Int := do
  let new ← newprocSpace
  match new with
  | none => pure (-1)
  | some new =>
    let s ← get
    let oldpgt ← pgtOf p
    let newpgt ← pgtOf new
    let (r, newpgt, oldpgt) ← onKmem (cpUserspace newpgt oldpgt 0x1000 (s.procs p).size)
    setProc p fun q => { q with pgt := some oldpgt }
    if r < 0 then
      freeprocSpace new
      pure (-1)
    else
      setProc new fun q => { q with pgt := some newpgt, size := (s.procs p).size, state := .RUNNABLE }
      pure (s.procs new).pid

/-- `exec`. -/
def execProc (p : ProcId) (file : Option (List (Option Phdr))) (argv : List Nat) : SpM Int := do
  let s ← get
  let pgt ← pgtOf p
  let (r, new) ← onKmem (execSpace pgt (s.procs p).size file argv)
  match new with
  | none => pure r
  | some (pgt, memsize) =>
    setProc p fun q => { q with pgt := some pgt, size := memsize }
    pure r

/-- `p->size + incr`. -/
def sizePlus (size : Nat) (incr : BitVec 32) : Nat := (((size : Int) + incr.toInt) % 2 ^ 64).toNat

/-- `sbrk`. -/
def sbrk (p : ProcId) (incr : BitVec 32) : SpM (Option Nat) := do
  let s ← get
  let size := (s.procs p).size
  if incr.toInt > 0 then
    let pgt ← pgtOf p
    let (h, pgt) ← onKmem (growUserspace pgt 0x1000 size (sizePlus size incr))
    setProc p fun q => { q with pgt := some pgt, size := sizePlus size incr }
    pure h
  else
    setProc p fun q => { q with size := sizePlus size incr }
    pure none

/-- `exitproc`. -/
def exitSpace (p : ProcId) : SpM Unit := do
  let s ← get
  if (s.procs p).pid = 0 then throw (.panic "init exit")
  else
    let pgt ← pgtOf p
    onKmem (freeUserspace pgt (s.procs p).size)
    setProc p fun q => { q with pgt := none, state := .ZOMBIE }

/-- `userproc_init`, for `initcode` of `size` bytes: whether the stack has been mapped, which
the source does not look at. -/
def userprocInit (size : Nat) : SpM Bool := do
  let p ← newprocSpace
  match p with
  | none => throw (.panic "initproc")
  | some p =>
    let pgt ← pgtOf p
    let s ← get
    let (done, pgt) ← onKmem (allocPages (PTE_NORMAL ||| PTE_U) size (s.kmem.free + 1) pgt 0x1000 0)
    if !done then throw (.panic "init_userspace")
    else
      let (mapped, pgt) ← onKmem (mapUstack pgt)
      setProc p fun q => { q with pgt := some pgt, size := size, state := .RUNNABLE }
      pure mapped

/-- A call by a process, or `wait` freeing the slot of one that has exited. -/
inductive SpaceCall where
  | sbrk (p : ProcId) (incr : BitVec 32)
  | fork (p : ProcId)
  | exec (p : ProcId) (file : Option (List (Option Phdr))) (argv : List Nat)
  | exit (p : ProcId)
  | reap (p : ProcId)

/-- The state its slot must be in; an executable has one loadable segment, at `0x1000`. -/
def SpaceCall.enabled (s : Spaces) : SpaceCall → Prop
  | sbrk p _ | fork p | exit p => (s.procs p).state = .RUNNABLE
  | exec p file _ => (s.procs p).state = .RUNNABLE ∧ ∀ phdrs ∈ file, AtBase phdrs
  | reap p => (s.procs p).state = .ZOMBIE

instance (s : Spaces) (call : SpaceCall) : Decidable (call.enabled s) :=
  match call with
  | .sbrk .. | .fork _ | .exit _ | .reap _ => inferInstanceAs (Decidable (_ = _))
  | .exec .. => inferInstanceAs (Decidable (_ ∧ _))

def SpaceCall.run : SpaceCall → SpM Unit
  | sbrk p incr => do let _ ← Kernel.sbrk p incr
  | fork p => do let _ ← forkSpace p
  | exec p file argv => do let _ ← execProc p file argv
  | exit p => exitSpace p
  | reap p => freeprocSpace p

/-- What the allocator has at boot: at most the pages of 256 MB. -/
def bootPages : Nat := 2 ^ 16

/-- The processes from the first one on. -/
def spaces : System Spaces SpaceCall where
  init s := ∃ freelist size, freelist.length ≤ bootPages ∧
    userprocInit size { kmem := { freelist, held := false }, procs := fun _ => UserProc.zero, nextpid := 0 } = .ok (true, s)
  step s call := if call.enabled s then ((call.run s).toOption.map Prod.snd) else none

/-- The pages of a process: its kernel stack, and those of its table. -/
def UserProc.pages (q : UserProc) : Nat := (q.kstack.elim 0 fun _ => 1) + q.pgt.elim 0 PageTable.pages

/-- The pages that are free or belong to a process. -/
def Spaces.total (s : Spaces) : Nat := s.kmem.free + ∑ p, (s.procs p).pages

/-- The addresses a process has mapped are those of its image, as its size says, and of its stack. -/
def UserProc.MapsSize (q : UserProc) : Prop := ∃ pgt, q.pgt = some pgt ∧ ∀ va < 2 ^ 39, (pgt.pte va).isSome ↔
  (0x1000 ≤ va ∧ va < 0x1000 + PAGEROUNDUP q.size) ∨ (USTACKBOTTOM ≤ va ∧ va < USTACKTOP)

/-- A process maps what its size says, each page with a page of its own. -/
def UserProc.Right (q : UserProc) : Prop := ∃ pgt, q.pgt = some pgt ∧ pgt.Maps (Image (PAGEROUNDUP q.size / PAGESIZE)) ∧
  PAGEROUNDUP q.size / PAGESIZE ≤ pgt.pages ∧ q.size < U64

/-- Every process that runs does, and no page appears from nowhere. -/
structure Spaces.Right (s : Spaces) : Prop where
  total : s.total ≤ bootPages
  image : ∀ p, (s.procs p).state = .RUNNABLE → (s.procs p).Right

/-- Every process that runs has some property, and no page appears from nowhere. -/
structure Spaces.Each (R : UserProc → Prop) (s : Spaces) : Prop where
  total : s.total ≤ bootPages
  image : ∀ p, (s.procs p).state = .RUNNABLE → R (s.procs p)

theorem Spaces.right_iff {s : Spaces} : s.Right ↔ s.Each UserProc.Right := ⟨fun h => ⟨h.total, h.image⟩, fun h => ⟨h.total, h.image⟩⟩

/-- A property that `fork` passes on and `exit` can do with: the table may grow, the copy may be exact, and what
the size says can be freed. -/
structure Inherited (R : UserProc → Prop) : Prop where
  table : ∀ {q : UserProc}, R q → q.pgt.isSome
  walked : ∀ {q : UserProc} {pgt pgt' : PageTable}, R q → q.pgt = some pgt → (∀ va, pgt'.pte va = pgt.pte va) →
    pgt.pages ≤ pgt'.pages → R { q with pgt := some pgt' }
  copied : ∀ {q q' : UserProc} {pgt : PageTable}, R q → q'.pgt = some pgt → q'.size = q.size →
    pgt.Maps (Image (PAGEROUNDUP q.size / PAGESIZE)) → PAGEROUNDUP q.size / PAGESIZE ≤ pgt.pages → R q'
  freed : ∀ {q : UserProc} {pgt : PageTable} (s : Kallocator), R q → q.pgt = some pgt → pgt.pages ≤ bootPages →
    Ends PagePanic (freeUserspace pgt q.size) s fun _ u => u.free ≤ s.free + pgt.pages

/-- The image and the stack, page by page. -/
theorem image_addresses {t : PageTable} {size : Nat} : t.Maps (Image (PAGEROUNDUP size / PAGESIZE)) ↔
    ∀ va < 2 ^ 39, (t.pte va).isSome ↔
      (0x1000 ≤ va ∧ va < 0x1000 + PAGEROUNDUP size) ∨ (USTACKBOTTOM ≤ va ∧ va < USTACKTOP) := by
  have whole := PAGEROUNDUP_pages size
  have inside : ∀ va, Image (PAGEROUNDUP size / PAGESIZE) (va / PAGESIZE) ↔
      (0x1000 ≤ va ∧ va < 0x1000 + PAGEROUNDUP size) ∨ (USTACKBOTTOM ≤ va ∧ va < USTACKTOP) := by
    intro va
    have bottom : USTACKBOTTOM = STACKPAGE * 4096 := by decide
    have top : USTACKTOP = STACKPAGE * 4096 + 4096 := by decide
    rw [bottom, top]
    unfold Image
    generalize STACKPAGE = stack
    simp only [PAGESIZE] at whole ⊢
    omega
  constructor
  · intro maps va lt
    have page : va / PAGESIZE < 2 ^ 27 := Nat.div_lt_of_lt_mul lt
    have start : t.pte va = t.pte (va / PAGESIZE * PAGESIZE) :=
      t.pte_page (Nat.mul_div_cancel (va / PAGESIZE) (show 0 < PAGESIZE by decide)).symm
    rw [← inside va, ← maps _ page, start]
  · intro each n lt
    have low : n * PAGESIZE < 2 ^ 39 := by
      simp only [PAGESIZE]
      omega
    rw [each _ low, ← inside, Nat.mul_div_cancel n (by decide)]

theorem UserProc.mapsSize_iff {q : UserProc} :
    q.MapsSize ↔ ∃ pgt, q.pgt = some pgt ∧ pgt.Maps (Image (PAGEROUNDUP q.size / PAGESIZE)) := by
  unfold UserProc.MapsSize
  simp only [image_addresses]

theorem UserProc.Right.mapsSize {q : UserProc} (h : q.Right) : q.MapsSize := by
  obtain ⟨pgt, has, image, -⟩ := h
  exact mapsSize_iff.2 ⟨pgt, has, image⟩

section Frame
variable {s t : Spaces} {p : ProcId} {α : Type}

/-- A process whose slot has changed. -/
theorem each_update {R : UserProc → Prop} {procs : ProcId → UserProc} (each : ∀ p, (procs p).state = .RUNNABLE → R (procs p))
    {q : UserProc} (right : q.state = .RUNNABLE → R q) (p p' : ProcId) (live : (Function.update procs p q p').state = .RUNNABLE) :
    R (Function.update procs p q p') := by
  rcases eq_or_ne p' p with rfl | ne
  · rw [Function.update_self] at live ⊢
    exact right live
  · rw [Function.update_of_ne ne] at live ⊢
    exact each p' live

namespace Spaces.Each
variable {R : UserProc → Prop}

/-- What a call may do to the slot of a process: pages only come from the allocator. -/
theorem put (h : s.Each R) {k : Kallocator} {q : UserProc} (nextpid : Int)
    (pages : k.free + q.pages ≤ s.kmem.free + (s.procs p).pages) (right : q.state = .RUNNABLE → R q) :
    Spaces.Each R { kmem := k, procs := Function.update s.procs p q, nextpid } := by
  constructor
  · have moved := sum_update UserProc.pages s.procs p q
    have total := h.total
    unfold Spaces.total at total ⊢
    simp only
    omega
  · exact each_update h.image right p

/-- What it may do to the slots of two. -/
theorem put_two (h : s.Each R) {k : Kallocator} {p' : ProcId} {q q' : UserProc} (nextpid : Int) (ne : p' ≠ p)
    (pages : k.free + (q.pages + q'.pages) ≤ s.kmem.free + ((s.procs p).pages + (s.procs p').pages))
    (right : q.state = .RUNNABLE → R q) (right' : q'.state = .RUNNABLE → R q') :
    Spaces.Each R { kmem := k, procs := Function.update (Function.update s.procs p q) p' q', nextpid } := by
  constructor
  · have moved := sum_update UserProc.pages s.procs p q
    have moved' := sum_update UserProc.pages (Function.update s.procs p q) p' q'
    have total := h.total
    rw [Function.update_of_ne ne] at moved'
    unfold Spaces.total at total ⊢
    simp only
    omega
  · exact each_update (each_update h.image right p) right' p'

/-- Pages of one process, and the free ones. -/
theorem few (h : s.Each R) (p : ProcId) : s.kmem.free + (s.procs p).pages ≤ bootPages := by
  have one : (s.procs p).pages ≤ ∑ p, (s.procs p).pages :=
    Finset.single_le_sum (f := fun p => (s.procs p).pages) (fun _ _ => Nat.zero_le _) (Finset.mem_univ p)
  have total := h.total
  unfold Spaces.total at total
  omega

end Spaces.Each

theorem Spaces.Right.put (h : s.Right) {k : Kallocator} {q : UserProc} (nextpid : Int)
    (pages : k.free + q.pages ≤ s.kmem.free + (s.procs p).pages) (right : q.state = .RUNNABLE → q.Right) :
    Spaces.Right { kmem := k, procs := Function.update s.procs p q, nextpid } :=
  right_iff.2 ((right_iff.1 h).put nextpid pages right)

theorem Spaces.Right.few (h : s.Right) (p : ProcId) : s.kmem.free + (s.procs p).pages ≤ bootPages := (right_iff.1 h).few p

/-- A function of `mm.c` is called. -/
theorem onKmem_after {f : MmM α} {post : α → Kallocator → Prop} (h : After f s.kmem post) :
    After (onKmem f) s fun a t => post a t.kmem ∧ t = { s with kmem := t.kmem } := by
  intro a t run
  unfold onKmem at run
  cases result : f s.kmem with
  | error e =>
    rw [result] at run
    cases run
  | ok r =>
    rw [result] at run
    cases run
    exact ⟨h _ _ result, rfl⟩

/-- It leaves the processes as they are. -/
theorem onKmem_frame {f : MmM α} : After (onKmem f) s fun _ t => t = { s with kmem := t.kmem } :=
  (onKmem_after (fun _ _ _ => trivial : After f s.kmem fun _ _ => True)).mono fun _ _ given => given.2

theorem onKmem_ends {f : MmM α} {post : α → Kallocator → Prop} (h : Ends PagePanic f s.kmem post) :
    Ends PagePanic (onKmem f) s fun a t => post a t.kmem ∧ t = { s with kmem := t.kmem } := by
  refine ⟨onKmem_after h.1, ?_⟩
  intro e fails
  unfold onKmem at fails
  cases result : f s.kmem with
  | error e' =>
    rw [result] at fails
    cases fails
    exact h.2 _ result
  | ok r =>
    rw [result] at fails
    cases fails

theorem setProc_runs (s : Spaces) (p : ProcId) (f : UserProc → UserProc) :
    setProc p f s = .ok ((), { s with procs := Function.update s.procs p (f (s.procs p)) }) := rfl

/-- The table of a process that has one. -/
theorem pgtOf_runs {pgt : PageTable} (has : (s.procs p).pgt = some pgt) : pgtOf p s = .ok (pgt, s) := by
  unfold pgtOf
  show (match (s.procs p).pgt with
    | none => throw .undefined
    | some pgt => pure pgt : SpM PageTable) s = _
  rw [has]
  rfl

end Frame

section Calls
variable {s : Spaces} {p : ProcId} {R : UserProc → Prop}

/-- A new slot: a stack and an empty table, or it is left without. -/
theorem newprocSpace_ends (h : s.Each R) : Ends PagePanic newprocSpace s fun new t => t.Each R ∧
    (∀ p, (s.procs p).state = .RUNNABLE → t.procs p = s.procs p) ∧
    ∀ new', new = some new' → (s.procs new').state = .UNUSED ∧ (t.procs new').state = .CREATED ∧
      ∃ page, (t.procs new').pgt = some (Table.empty page) := by
  unfold newprocSpace
  apply Ends.step (get_runs s)
  split
  case h_1 => exact Ends.pure ⟨h, fun _ _ => rfl, nofun⟩
  case h_2 new found =>
  have unused : (s.procs new).state = .UNUSED := by simpa using List.find?_some found
  apply Ends.step (setProc_runs ..)
  apply Ends.step (modify_runs ..)
  apply (onKmem_ends (kalloc_ends _)).bind
  rintro kstack t ⟨⟨taken, -⟩, same⟩
  simp only at taken
  rw [same]
  apply Ends.step (setProc_runs ..)
  have others : ∀ q p, (s.procs p).state = .RUNNABLE → Function.update s.procs new q p = s.procs p := by
    intro q p live
    apply Function.update_of_ne
    rintro rfl
    rw [unused] at live
    cases live
  cases kstack with
  | none =>
    apply Ends.pure
    simp only [Function.update_idem, Function.update_self]
    refine ⟨h.put _ ?_ (by simp), others _, nofun⟩
    simp only [UserProc.pages, Option.elim_none] at *
    omega
  | some kstack =>
  rw [if_neg (by simp)]
  apply (onKmem_ends (kalloc_ends _)).bind
  rintro pgt u ⟨⟨taken', -⟩, same'⟩
  simp only at taken'
  rw [same']
  apply Ends.step (setProc_runs ..)
  apply Ends.pure
  simp only [Function.update_idem, Function.update_self]
  refine ⟨h.put _ ?_ (by simp), others _, ?_⟩
  · cases pgt with
    | none =>
      simp only [UserProc.pages, Option.elim_none, Option.elim_some, Option.map_none] at *
      omega
    | some page =>
      have root : PageTable.pages (Table.empty page) = 1 := Table.weight_empty ..
      simp only [UserProc.pages, Option.elim_some, Option.map_some] at *
      omega
  · intro new' made
    cases pgt with
    | none => cases made
    | some page =>
      cases made
      rw [Function.update_self]
      exact ⟨unused, rfl, page, rfl⟩

/-- `freeproc` of a slot that does not run. -/
theorem freeprocSpace_ends (h : s.Each R) (p : ProcId) : Ends PagePanic (freeprocSpace p) s fun _ t => t.Each R := by
  unfold freeprocSpace
  apply Ends.step (get_runs s)
  have freed : ∀ (k : Kallocator), k.free ≤ s.kmem.free + ((s.procs p).kstack.elim 0 fun _ => 1) →
      Ends PagePanic (setProc p fun _ => UserProc.zero) { s with kmem := k } fun _ t => t.Each R := by
    intro k le
    refine ⟨fun _ t run => ?_, fun e fails => nomatch fails⟩
    cases run
    apply h.put s.nextpid ?_ (by simp [UserProc.zero])
    simp only [UserProc.pages, UserProc.zero, Option.elim_none]
    omega
  split
  case h_1 none =>
    rw [none] at freed
    exact freed s.kmem le_rfl
  case h_2 page stack =>
    rw [stack] at freed
    apply (onKmem_ends (kfree_ends s.kmem page)).bind
    rintro _ t ⟨more, same⟩
    rw [same]
    exact freed t.kmem more.le

/-- `sbrk` keeps the mapping right: nothing is mapped and the rounded size stays, or all pages
the growth takes are there. -/
def Spaces.SbrkFits (s : Spaces) (p : ProcId) (incr : BitVec 32) : Prop :=
  let q := s.procs p
  let newsz := sizePlus q.size incr
  ((incr.toInt ≤ 0 ∨ s.kmem.free = 0) ∧ PAGEROUNDUP newsz = PAGEROUNDUP q.size) ∨
    0 < incr.toInt ∧ ∀ pgt ∈ q.pgt,
      need pgt.missing (rounds (PAGEROUNDUP q.size / PAGESIZE) newsz) (0x1000 + PAGEROUNDUP q.size) ≤ s.kmem.free

instance (s : Spaces) (p : ProcId) (incr : BitVec 32) : Decidable (s.SbrkFits p incr) := inferInstanceAs (Decidable (_ ∨ _))

/-- A process that maps `b` pages has the right table when its size says so. -/
theorem UserProc.right_iff {q : UserProc} {pgt : PageTable} {b : Nat} (has : q.pgt = some pgt) (image : pgt.Maps (Image b))
    (long : b ≤ pgt.pages) (few : b ≤ 2 ^ 17) (small : q.size < U64) :
    (q.MapsSize ↔ PAGEROUNDUP q.size = b * PAGESIZE) ∧ (q.MapsSize → q.Right) := by
  have right : PAGEROUNDUP q.size = b * PAGESIZE → q.Right := by
    intro eq
    have count : PAGEROUNDUP q.size / PAGESIZE = b := by rw [eq, Nat.mul_div_cancel _ (by decide)]
    exact ⟨pgt, has, by rw [count]; exact image, by rw [count]; exact long, small⟩
  have exactly : q.MapsSize → PAGEROUNDUP q.size = b * PAGESIZE := by
    intro maps
    obtain ⟨pgt', has', image'⟩ := UserProc.mapsSize_iff.1 maps
    rw [has] at has'
    cases has'
    rw [image.image_inj image' few, PAGEROUNDUP_pages]
  exact ⟨⟨exactly, fun eq => (right eq).mapsSize⟩, fun maps => right (exactly maps)⟩

theorem sizePlus_lt (size : Nat) (incr : BitVec 32) : sizePlus size incr < U64 := by
  have sum : ((size : Int) + incr.toInt) % 2 ^ 64 < 2 ^ 64 := Int.emod_lt_of_pos _ (by decide)
  unfold sizePlus
  simp only [U64]
  omega

/-- A size in the range of the memory grows. -/
theorem sizePlus_gt {size : Nat} {incr : BitVec 32} (low : size ≤ 2 ^ 28) (pos : 0 < incr.toInt) : size < sizePlus size incr := by
  have most : incr.toInt < 2 ^ 31 := incr.toInt_lt
  unfold sizePlus
  rw [Int.emod_eq_of_lt (by omega) (by omega)]
  omega

/-- A positive increment of a size that is not too large. -/
theorem sizePlus_eq {size : Nat} {incr : BitVec 32} (low : size ≤ 2 ^ 63) (pos : 0 < incr.toInt) : sizePlus size incr = size + incr.toNat := by
  have value : incr.toInt = incr.toNat := by
    have cond := BitVec.toInt_eq_toNat_cond incr
    split at cond
    · exact cond
    · have lt := incr.isLt
      omega
  have lt := incr.isLt
  unfold sizePlus
  rw [value, Int.emod_eq_of_lt (by omega) (by omega)]
  omega

/-- **One `sbrk`.** The process maps what its size says afterwards exactly when the call fits. -/
theorem sbrk_ends (h : s.Right) (live : (s.procs p).state = .RUNNABLE) (incr : BitVec 32) :
    Ends PagePanic (sbrk p incr) s fun _ t => ∃ q, (∃ k, t = { s with kmem := k, procs := Function.update s.procs p q } ∧
      k.free + q.pages = s.kmem.free + (s.procs p).pages) ∧ q.state = .RUNNABLE ∧ (q.MapsSize ↔ s.SbrkFits p incr) ∧ (q.MapsSize → q.Right) := by
  obtain ⟨pgt, has, image, long, small⟩ := h.image p live
  have few := h.few p
  have part : pgt.pages ≤ (s.procs p).pages := by simp only [UserProc.pages, has, Option.elim_some]; omega
  have small' := sizePlus_lt (s.procs p).size incr
  have whole := (PAGEROUNDUP_pages (s.procs p).size).symm
  generalize count : PAGEROUNDUP (s.procs p).size / PAGESIZE = b at image long whole
  simp only [bootPages] at few
  unfold sbrk
  apply Ends.step (get_runs s)
  dsimp only
  split
  case isTrue pos =>
    apply Ends.step (pgtOf_runs has)
    apply (onKmem_ends (growUserspace_ends s.kmem whole image (by omega))).bind
    rintro ⟨start, pgt'⟩ t ⟨⟨pages, k, le, grown, image', before, fits, none⟩, same⟩
    rw [same]
    apply Ends.step (setProc_runs ..)
    apply Ends.pure
    refine ⟨_, ⟨_, rfl, ?_⟩, live, ?_⟩
    · simp only [UserProc.pages, has, Option.elim_some] at *
      omega
    · have above : b = 0 ∨ (b - 1) * PAGESIZE < sizePlus (s.procs p).size incr := by
        rcases PAGEROUNDUP_bounds small whole with zero | ⟨most, least⟩
        · exact .inl zero
        · refine .inr (least.trans (sizePlus_gt ?_ pos))
          simp only [PAGESIZE] at *
          omega
      have few' : b + k ≤ 2 ^ 16 := by simp only at *; omega
      obtain ⟨exactly, right⟩ := UserProc.right_iff (q := { s.procs p with pgt := some pgt', size := sizePlus (s.procs p).size incr })
        rfl image' (by simp only at *; omega) (by omega) small'
      refine ⟨?_, right⟩
      rw [exactly, grown_iff small' above before none le (by omega)]
      unfold Spaces.SbrkFits
      simp only [has, Option.mem_def, Option.some.injEq, forall_eq', whole, Nat.mul_div_cancel b (show 0 < PAGESIZE by decide)]
      rw [fits]
      constructor
      · rintro (⟨zero, eq⟩ | enough)
        · exact .inl ⟨.inr zero, eq⟩
        · exact .inr ⟨pos, enough⟩
      · rintro (⟨neg | zero, eq⟩ | ⟨-, enough⟩)
        · omega
        · exact .inl ⟨zero, eq⟩
        · exact .inr enough
  case isFalse neg =>
    refine ⟨fun r t run => ?_, fun e fails => nomatch fails⟩
    cases run
    refine ⟨_, ⟨_, rfl, rfl⟩, live, ?_⟩
    obtain ⟨exactly, right⟩ := UserProc.right_iff (q := { s.procs p with size := sizePlus (s.procs p).size incr })
      has image long (by omega) small'
    refine ⟨?_, right⟩
    rw [exactly, ← whole]
    exact ⟨fun eq => .inl ⟨.inl (by omega), eq⟩, fun fits => (fits.resolve_right fun grows => neg grows.1).2⟩

/-- A right table is, whatever walks it. -/
theorem UserProc.Right.inherited : Inherited UserProc.Right where
  table := by
    intro q right
    obtain ⟨pgt, has, -⟩ := right
    rw [has]
    rfl
  walked := by
    intro q pgt pgt' right has same grown
    obtain ⟨pgt'', has', image, long, small⟩ := right
    obtain rfl : pgt = pgt'' := Option.some.inj (has.symm.trans has')
    exact ⟨pgt', rfl, image.congr same, long.trans grown, small⟩
  copied := by
    intro q q' pgt right has size image long
    obtain ⟨-, -, -, -, small⟩ := right
    rw [← size] at image long small
    exact ⟨pgt, has, image, long, small⟩
  freed := by
    intro q pgt s right has few
    obtain ⟨pgt', has', image, long, -⟩ := right
    obtain rfl : pgt = pgt' := Option.some.inj (has.symm.trans has')
    have top : 2 ^ 16 + 1 ≤ STACKPAGE := by decide
    simp only [bootPages] at few
    exact freeUserspace_ends s image (by omega)

/-- `fork` copies what the size says. -/
theorem forkSpace_ends (inherited : Inherited R) (h : s.Each R) (live : (s.procs p).state = .RUNNABLE) :
    Ends PagePanic (forkSpace p) s fun _ t => t.Each R := by
  unfold forkSpace
  apply (newprocSpace_ends h).bind
  rintro (_ | new) t ⟨right, same, made⟩
  · exact Ends.pure right
  obtain ⟨unused, created, page, root⟩ := made new rfl
  have parent : t.procs p = s.procs p := same p live
  have ne : new ≠ p := by
    rintro rfl
    rw [parent, live] at created
    cases created
  have live' : (t.procs p).state = .RUNNABLE := by rw [parent, live]
  have own := right.image p live'
  obtain ⟨pgt, has⟩ := Option.isSome_iff_exists.1 (inherited.table own)
  have empty : PageTable.Maps (Table.empty page) fun _ => False := fun n _ => iff_of_false (by simp [PageTable.pte]) id
  have one : PageTable.pages (Table.empty page) = 1 := Table.weight_empty ..
  have top : 2 ^ 16 + 1 ≤ STACKPAGE := by decide
  have few := right.few p
  simp only [bootPages] at few
  apply Ends.step (get_runs t)
  apply Ends.step (pgtOf_runs has)
  apply Ends.step (pgtOf_runs root)
  apply (onKmem_ends (cpUserspace_ends t.kmem empty (by omega))).bind
  rintro ⟨r, newpgt, oldpgt⟩ u ⟨⟨copied, old, pages, grown⟩, keeps⟩
  rw [keeps]
  apply Ends.step (setProc_runs ..)
  have more := newpgt.pages_pos
  have total : (t.procs p).pages = ((t.procs p).kstack.elim 0 fun _ => 1) + pgt.pages := by
    rw [UserProc.pages, has, Option.elim_some]
  have kept : R { t.procs p with pgt := some oldpgt } := inherited.walked own has old grown
  split
  case isTrue failed =>
    have parted := right.put (k := u.kmem) (p := p) (q := { t.procs p with pgt := some oldpgt }) t.nextpid
      (by simp only [UserProc.pages, Option.elim_some] at *; omega) fun _ => kept
    apply (freeprocSpace_ends parted new).bind
    exact fun _ v right' => Ends.pure right'
  case isFalse done =>
    obtain ⟨image', long'⟩ := copied done
    apply Ends.step (setProc_runs ..)
    apply Ends.pure
    apply right.put_two t.nextpid ne
    · simp only [Function.update_of_ne ne, UserProc.pages, root, Option.elim_some] at *
      omega
    · exact fun _ => kept
    · exact fun _ => inherited.copied own rfl rfl image' long'

/-- `exec` maps what the new size says. -/
theorem execProc_ends (h : s.Right) (live : (s.procs p).state = .RUNNABLE) {file : Option (List (Option Phdr))}
    (base : ∀ phdrs ∈ file, AtBase phdrs) (argv : List Nat) :
    Ends PagePanic (execProc p file argv) s fun _ t => t.Right := by
  obtain ⟨pgt, has, image, long, small⟩ := h.image p live
  have few := h.few p
  have part : pgt.pages ≤ (s.procs p).pages := by simp only [UserProc.pages, has, Option.elim_some]; omega
  have top : 2 ^ 16 + 1 ≤ STACKPAGE := by decide
  simp only [bootPages] at few
  unfold execProc
  apply Ends.step (get_runs s)
  apply Ends.step (pgtOf_runs has)
  apply (onKmem_ends (execSpace_ends base s.kmem argv (by omega) image (by omega))).bind
  rintro ⟨r, new⟩ t ⟨⟨loaded, failed⟩, same⟩
  rw [same]
  cases new with
  | none =>
    apply Ends.pure
    have less := failed rfl
    have kept := h.put (k := t.kmem) (p := p) (q := s.procs p) s.nextpid (by omega) (h.image p)
    rwa [Function.update_eq_self] at kept
  | some new =>
    obtain ⟨pgt', memsize⟩ := new
    obtain ⟨image', long', small', pages⟩ := loaded pgt' memsize rfl
    apply Ends.step (setProc_runs ..)
    apply Ends.pure
    apply h.put s.nextpid
    · simp only [UserProc.pages, has, Option.elim_some] at *
      omega
    · exact fun _ => ⟨pgt', rfl, image', long', small'⟩

/-- `exit` unmaps what the size says. -/
theorem exitSpace_ends (inherited : Inherited R) (h : s.Each R) (live : (s.procs p).state = .RUNNABLE) :
    Ends PagePanic (exitSpace p) s fun _ t => t.Each R := by
  have own := h.image p live
  obtain ⟨pgt, has⟩ := Option.isSome_iff_exists.1 (inherited.table own)
  have few := h.few p
  have part : pgt.pages ≤ (s.procs p).pages := by simp only [UserProc.pages, has, Option.elim_some]; omega
  unfold exitSpace
  apply Ends.step (get_runs s)
  split
  · apply Ends.throw
    rintro ⟨msg, mem, same⟩
    cases same
    revert mem
    decide
  · apply Ends.step (pgtOf_runs has)
    apply (onKmem_ends (inherited.freed s.kmem own has (by omega))).bind
    rintro _ t ⟨freed, same⟩
    rw [same]
    refine ⟨fun _ u run => ?_, fun e fails => nomatch fails⟩
    cases run
    apply h.put s.nextpid
    · simp only [UserProc.pages, has, Option.elim_some, Option.elim_none] at *
      omega
    · nofun

end Calls

section Runs
variable {s t : Spaces}

/-- Of the calls, `sbrk` is the one that may not fit. -/
def SpaceCall.Fits (s : Spaces) : SpaceCall → Prop
  | sbrk p incr => s.SbrkFits p incr
  | _ => True

/-- The first process. -/
theorem spaces_init (boot : spaces.init s) : s.Right := by
  obtain ⟨freelist, size, few, run⟩ := boot
  have start : Spaces.Each UserProc.Right { kmem := { freelist, held := false }, procs := fun _ => UserProc.zero, nextpid := 0 } := by
    constructor
    · simpa [Spaces.total, UserProc.pages, UserProc.zero, Kallocator.free] using few
    · intro p live
      cases live
  suffices h : Ends PagePanic (userprocInit size) _ fun mapped t => mapped = true → t.Right from h.1 _ _ run rfl
  clear run
  unfold userprocInit
  apply (newprocSpace_ends start).bind
  rintro (_ | p) t ⟨right, -, made⟩
  · apply Ends.throw
    rintro ⟨msg, mem, same⟩
    cases same
    revert mem
    decide
  obtain ⟨-, -, page, root⟩ := made p rfl
  have empty : PageTable.Maps (Table.empty page) fun _ => False := fun n _ => iff_of_false (by simp [PageTable.pte]) id
  have one : PageTable.pages (Table.empty page) = 1 := Table.weight_empty ..
  have top : 2 ^ 16 + 1 ≤ STACKPAGE := by decide
  have few' := right.few p
  simp only [bootPages, UserProc.pages, root, Option.elim_some] at few'
  apply Ends.step (pgtOf_runs root)
  apply Ends.step (get_runs t)
  apply (onKmem_ends (allocPages_ends _ size (t.kmem.free + 1) (a := 1) (b := 0) empty (fun _ _ _ => id) (by omega) (by omega))).bind
  rintro ⟨done, pgt⟩ u ⟨⟨k, le, maps, pages, grown, before, ended, -⟩, same⟩
  simp only [Nat.zero_add] at before ended
  cases done with
  | false =>
    apply Ends.throw
    rintro ⟨msg, mem, same⟩
    cases same
    revert mem
    decide
  | true =>
  have size_le : size ≤ k * PAGESIZE := ended.1 rfl
  have bound : k * PAGESIZE ≤ 2 ^ 16 * PAGESIZE := Nat.mul_le_mul_right _ (by omega)
  have count : PAGEROUNDUP size / PAGESIZE = k := by
    rw [PAGEROUNDUP_eq (by omega) size_le before, Nat.mul_div_cancel _ (by decide)]
  simp only [Bool.not_true, Bool.false_eq_true, if_false]
  rw [same]
  apply (onKmem_ends (s := { kmem := u.kmem, procs := t.procs, nextpid := t.nextpid })
    (mapUstack_ends (r := k) u.kmem ?_ (by omega))).bind
  · rintro ⟨mapped, pgt'⟩ v ⟨⟨image, pages', more⟩, same'⟩
    rw [same']
    apply Ends.step (setProc_runs ..)
    apply Ends.pure
    rintro rfl
    apply Spaces.right_iff.2
    apply right.put t.nextpid
    · simp only [UserProc.pages, root, Option.elim_some] at *
      omega
    · refine fun _ => ⟨pgt', rfl, ?_, ?_, ?_⟩
      · rw [count]
        exact image rfl
      · rw [count]
        simp only at *
        omega
      · simp only [PAGESIZE, U64] at *
        omega
  · intro n lt
    rw [maps n lt]
    exact iff_of_eq (false_or _)

/-- Each call that fits keeps every process right. -/
theorem SpaceCall.run_ends (h : s.Right) (call : SpaceCall) (on : call.enabled s) (fits : call.Fits s) :
    Ends PagePanic call.run s fun _ t => t.Right := by
  cases call with
  | sbrk p incr =>
    apply (sbrk_ends h on incr).bind
    rintro r t ⟨q, ⟨k, rfl, pages⟩, -, exactly, right⟩
    exact Ends.pure (h.put s.nextpid pages.le fun _ => right (exactly.2 fits))
  | fork p => exact (forkSpace_ends UserProc.Right.inherited (Spaces.right_iff.1 h) on).bind fun _ _ right => Ends.pure (Spaces.right_iff.2 right)
  | exec p file argv => exact (execProc_ends h on.1 on.2 argv).bind fun _ _ right => Ends.pure right
  | exit p => exact (exitSpace_ends UserProc.Right.inherited (Spaces.right_iff.1 h) on).mono fun _ _ right => Spaces.right_iff.2 right
  | reap p => exact (freeprocSpace_ends (Spaces.right_iff.1 h) p).mono fun _ _ right => Spaces.right_iff.2 right

theorem spaces_step {call : SpaceCall} : spaces.step s call = some t ↔ call.enabled s ∧ ∃ r, call.run s = .ok (r, t) := by
  show (if call.enabled s then ((call.run s).toOption.map Prod.snd) else none) = some t ↔ _
  split
  case isFalse off => exact iff_of_false nofun fun on => off on.1
  case isTrue on =>
    cases call.run s with
    | error e => exact iff_of_false nofun (by simp)
    | ok r =>
      obtain ⟨r, u⟩ := r
      constructor
      · intro same
        cases same
        exact ⟨on, r, rfl⟩
      · rintro ⟨-, r', same⟩
        cases same
        rfl

/-- In a run whose `sbrk` calls all fit, every process maps what its size says. -/
theorem spaces_right (run : spaces.Via (fun s call => call.Fits s) s) : s.Right := by
  apply run.invariant (fun s boot => spaces_init boot)
  intro s call t right fits step
  obtain ⟨on, r, run⟩ := spaces_step.1 step
  exact (call.run_ends right on fits).1 r t run

/-- No call panics in the page tables of processes that are right, also no `sbrk` that does not fit. -/
theorem SpaceCall.no_pagePanic (h : s.Right) (call : SpaceCall) (on : call.enabled s) {msg : String} (mem : msg ∈ pagePanics) :
    call.run s ≠ .error (.panic msg) := by
  intro fails
  cases call with
  | sbrk p incr =>
    have ends : Ends PagePanic (SpaceCall.sbrk p incr).run s fun _ _ => True :=
      (sbrk_ends h on incr).bind fun _ _ _ => Ends.pure trivial
    exact ends.2 _ fails ⟨msg, mem, rfl⟩
  | fork p => exact (run_ends h (.fork p) on trivial).2 _ fails ⟨msg, mem, rfl⟩
  | exec p file argv => exact (run_ends h (.exec p file argv) on trivial).2 _ fails ⟨msg, mem, rfl⟩
  | exit p => exact (run_ends h (.exit p) on trivial).2 _ fails ⟨msg, mem, rfl⟩
  | reap p => exact (run_ends h (.reap p) on trivial).2 _ fails ⟨msg, mem, rfl⟩

/-- An `sbrk` of a process that is right leaves it so exactly when it fits. -/
theorem sbrk_step (h : s.Right) {p : ProcId} {incr : BitVec 32} (step : spaces.step s (.sbrk p incr) = some t) :
    (t.procs p).MapsSize ↔ s.SbrkFits p incr := by
  obtain ⟨on, r, run⟩ := spaces_step.1 step
  obtain ⟨r', u, run, same⟩ := run_bind.1 run
  cases same
  obtain ⟨q, ⟨k, rfl, -⟩, -, exactly, -⟩ := (sbrk_ends h on incr).1 r' _ run
  show (Function.update s.procs p q p).MapsSize ↔ _
  rw [Function.update_self]
  exact exactly

/-- **Sizes and page tables agree.** In a run whose `sbrk` calls all fit, every process maps
exactly its image and its stack, and no call panics in `pagemap` or `pageunmap`. The next `sbrk`
keeps the process so if and only if it fits as well. -/
theorem address_spaces_match_sizes (run : spaces.Via (fun s call => call.Fits s) s) :
    (∀ p, (s.procs p).state = .RUNNABLE → (s.procs p).MapsSize) ∧
    (∀ call : SpaceCall, call.enabled s → ∀ msg ∈ pagePanics, call.run s ≠ .error (.panic msg)) ∧
    ∀ p incr t, spaces.step s (.sbrk p incr) = some t → ((t.procs p).MapsSize ↔ s.SbrkFits p incr) := by
  have right := spaces_right run
  refine ⟨fun p live => (right.image p live).mapsSize, fun call on msg mem => ?_, fun p incr t step => ?_⟩
  · exact call.no_pagePanic right on mem
  · exact sbrk_step right step

/-- A boot with 20 pages. -/
def smallBoot : Option Spaces :=
  match userprocInit 0x1000 { kmem := { freelist := List.range' 1 20, held := false }, procs := fun _ => UserProc.zero, nextpid := 0 } with
  | .ok (true, s) => some s
  | _ => none

theorem smallBoot_init (boot : smallBoot = some s) : spaces.init s := by
  unfold smallBoot at boot
  split at boot
  · rename_i s' run
    cases boot
    exact ⟨List.range' 1 20, 0x1000, by decide, run⟩
  · cases boot

/-- The first process grows by a page, and forks. -/
theorem address_spaces_match_sizes_grown : ∃ s : Spaces, (∀ p, (s.procs p).state = .RUNNABLE → (s.procs p).MapsSize) ∧
    (s.procs 0).size = 0x2000 ∧ (s.procs 1).size = 0x2000 ∧ (s.procs 1).state = .RUNNABLE := by
  have run : (smallBoot.bind fun s => (spaces.step s (.sbrk 0 0x1000#32)).bind fun t => (spaces.step t (.fork 0)).map fun u =>
      decide (s.SbrkFits 0 0x1000#32 ∧ (u.procs 0).size = 0x2000 ∧ (u.procs 1).size = 0x2000 ∧ (u.procs 1).state = .RUNNABLE)) =
      some true := by decide +kernel
  obtain ⟨s, boot, rest⟩ := Option.bind_eq_some_iff.1 run
  obtain ⟨t, grow, rest⟩ := Option.bind_eq_some_iff.1 rest
  obtain ⟨u, fork, shown⟩ := Option.map_eq_some_iff.1 rest
  obtain ⟨fits, sizes⟩ := of_decide_eq_true shown
  have via : spaces.Via (fun s call => call.Fits s) u :=
    ((System.Via.init (smallBoot_init boot)).step fits grow).step (a := .fork 0) trivial fork
  exact ⟨u, (address_spaces_match_sizes via).1, sizes⟩

/-- The child of the first process, with one page, calls `sbrk` with minus two: its size is now
almost `2 ^ 64`, its table has not changed, and its `exit` panics. -/
theorem shrunk_size_panics : ∃ s t, spaces.Reach s ∧ spaces.step s (.sbrk 1 (-0x2000)) = some t ∧
    ¬ (t.procs 1).MapsSize ∧ (SpaceCall.exit 1).run t = .error (.panic "bad unmap") := by
  have run : (smallBoot.bind fun s => (spaces.step s (.fork 0)).bind fun t => (spaces.step t (.sbrk 1 (-0x2000))).map fun u =>
      decide ((u.procs 1).pgt.all (fun pgt => (pgt.pte 0x2000).isNone) = true ∧ 0x2000 < 0x1000 + PAGEROUNDUP (u.procs 1).size) &&
        match (SpaceCall.exit 1).run u with
        | .error (.panic msg) => msg == "bad unmap"
        | _ => false) = some true := by decide +kernel
  obtain ⟨s, boot, rest⟩ := Option.bind_eq_some_iff.1 run
  obtain ⟨t, fork, rest⟩ := Option.bind_eq_some_iff.1 rest
  obtain ⟨u, shrink, shown⟩ := Option.map_eq_some_iff.1 rest
  obtain ⟨gap, panics⟩ := Bool.and_eq_true_iff.1 shown
  obtain ⟨unmapped, inside⟩ := of_decide_eq_true gap
  refine ⟨t, u, (System.Via.init (smallBoot_init boot)).step trivial fork, shrink, ?_, ?_⟩
  · rintro ⟨pgt, has, maps⟩
    rw [has, Option.all_some] at unmapped
    have mapped := (maps 0x2000 (by decide)).2 (.inl ⟨by decide, inside⟩)
    rw [Option.isNone_iff_eq_none.1 unmapped] at mapped
    cases mapped
  · split at panics
    case h_1 msg fails =>
      rw [fails, eq_of_beq panics]
    case h_2 => cases panics

end Runs

end Aarch64Os.Kernel
