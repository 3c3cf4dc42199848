import Aarch64Os.Kernel.Mm.AddressSpaces
import Aarch64Os.Kernel.Mm.PageCount

/-!
# Processes that share an address space (`kernel/proc.c`)

`clone` makes a process with the page table of its caller, and with a size of its own. A table is
found by the pointer in `p->pgt`, here by a number that is not used again; what is behind the
pointer is gone when the table has been freed. Each call is one step of the process that makes it.
-/

namespace Aarch64Os.Kernel.Thread
set_option autoImplicit false
open Base

/-- What `struct proc` says of an address space. -/
structure ThreadProc where
  state : ProcState
  pid : Int
  kstack : Option PageNo
  pgt : Option Nat
  size : Nat
  th : Bool
  deriving DecidableEq

/-- A slot after `memset(p, 0, sizeof(*p))`. -/
def ThreadProc.zero : ThreadProc := { state := .UNUSED, pid := 0, kstack := none, pgt := none, size := 0, th := false }

/-- `kallocator`, the page tables and the pointer the next one gets, `proctable.procs` and
`pidalloc.pid`. -/
structure Threads where
  kmem : Kallocator
  tables : Nat → Option PageTable
  next : Nat
  procs : ProcId → ThreadProc
  nextpid : Int

/-- A kernel function over the processes. -/
abbrev ThM := StateT Threads (Except Fault)

/-- A function of `mm.c` or `kalloc.c` is called. -/
def onKmem {α : Type} (f : MmM α) : ThM α := fun s => (f s.kmem).map fun r => (r.1, { s with kmem := r.2 })

/-- Change a slot. -/
def setProc (p : ProcId) (f : ThreadProc → ThreadProc) : ThM Unit :=
  modify fun s => { s with procs := Function.update s.procs p (f (s.procs p)) }

/-- Change what is behind a pointer. -/
def setTable (id : Nat) (t : Option PageTable) : ThM Unit := modify fun s => { s with tables := Function.update s.tables id t }

/-- A pointer to a new table. -/
def newTable (t : PageTable) : ThM Nat := do
  let s ← get
  set { s with tables := Function.update s.tables s.next (some t), next := s.next + 1 }
  pure s.next

/-- `p->pgt` and the table behind it, used without a check. -/
def tableOf (p : ProcId) : ThM (Nat × PageTable) := do
  let s ← get
  match (s.procs p).pgt with
  | none => throw .undefined
  | some id =>
    match s.tables id with
    | none => throw .undefined
    | some t => pure (id, t)

/-- `newproc`. -/
def newproc : ThM (Option ProcId) := do
  let s ← get
  match (List.finRange NPROC).find? fun p => (s.procs p).state = .UNUSED with
  | none => pure none
  | some p =>
    setProc p fun q => { q with state := .CREATED, pid := s.nextpid }
    modify fun s => { s with nextpid := s.nextpid + 1 }
    let kstack ← onKmem kalloc
    setProc p fun q => { q with kstack := kstack }
    if kstack.isNone then pure none
    else
      match ← onKmem kalloc with
      | none =>
        setProc p fun q => { q with pgt := none }
        pure none
      | some page =>
        let id ← newTable (Table.empty page)
        setProc p fun q => { q with pgt := some id }
        pure (some p)

/-- `freeproc`. -/
def freeproc (p : ProcId) : ThM Unit := do
  let s ← get
  match (s.procs p).kstack with
  | none => pure ()
  | some page => onKmem (kfree page)
  setProc p fun _ => ThreadProc.zero

/-- `fork`. -/
def fork (p : ProcId) : ThM Int := do
  match ← newproc with
  | none => pure (-1)
  | some new =>
    let s ← get
    let (old, oldpgt) ← tableOf p
    let (id, newpgt) ← tableOf new
    let (r, newpgt, oldpgt) ← onKmem (cpUserspace newpgt oldpgt 0x1000 (s.procs p).size)
    setTable old (some oldpgt)
    setTable id (some newpgt)
    if r < 0 then
      freeproc new
      pure (-1)
    else
      setProc new fun q => { q with size := (s.procs p).size, state := .RUNNABLE }
      pure (s.procs new).pid

/-- `clone`. The pointer to the table that `newproc` has made is overwritten. -/
def clone (p : ProcId) : ThM Int := do
  match ← newproc with
  | none => pure (-1)
  | some new =>
    let s ← get
    setProc new fun q => { q with pgt := (s.procs p).pgt, size := (s.procs p).size, state := .RUNNABLE, th := true }
    pure (s.procs new).pid

/-- `exec`. -/
def exec (p : ProcId) (file : Option (List (Option Phdr))) (argv : List Nat) : ThM Int := do
  let s ← get
  let (old, pgt) ← tableOf p
  let (r, new) ← onKmem (execSpace pgt (s.procs p).size file argv)
  match new with
  | none => pure r
  | some (pgt, memsize) =>
    setTable old none
    let id ← newTable pgt
    setProc p fun q => { q with pgt := some id, size := memsize }
    pure r

/-- `sbrk`. -/
def sbrk (p : ProcId) (incr : BitVec 32) : ThM (Option Nat) := do
  let s ← get
  let size := (s.procs p).size
  if incr.toInt > 0 then
    let (id, pgt) ← tableOf p
    let (h, pgt) ← onKmem (growUserspace pgt 0x1000 size (sizePlus size incr))
    setTable id (some pgt)
    setProc p fun q => { q with size := sizePlus size incr }
    pure h
  else
    setProc p fun q => { q with size := sizePlus size incr }
    pure none

/-- `exitproc`. -/
def exit (p : ProcId) : ThM Unit := do
  let s ← get
  if (s.procs p).pid = 0 then throw (.panic "init exit")
  else if (s.procs p).th then setProc p fun q => { q with state := .ZOMBIE }
  else
    let (id, pgt) ← tableOf p
    onKmem (freeUserspace pgt (s.procs p).size)
    setTable id none
    setProc p fun q => { q with state := .ZOMBIE }

/-- A call by a process, or `wait` freeing the slot of one that has exited. -/
inductive ThreadCall where
  | fork (p : ProcId)
  | clone (p : ProcId)
  | exec (p : ProcId) (file : Option (List (Option Phdr))) (argv : List Nat)
  | sbrk (p : ProcId) (incr : BitVec 32)
  | exit (p : ProcId)
  | reap (p : ProcId)

/-- The state its slot must be in. An executable has one loadable segment, at `0x1000`, and an
increment is positive. -/
def ThreadCall.enabled (s : Threads) : ThreadCall → Prop
  | fork p | clone p | exit p => (s.procs p).state = .RUNNABLE
  | sbrk p incr => (s.procs p).state = .RUNNABLE ∧ 0 < incr.toInt
  | exec p file _ => (s.procs p).state = .RUNNABLE ∧ ∀ phdrs ∈ file, AtBase phdrs
  | reap p => (s.procs p).state = .ZOMBIE

instance (s : Threads) (call : ThreadCall) : Decidable (call.enabled s) :=
  match call with
  | .fork _ | .clone _ | .exit _ | .reap _ => inferInstanceAs (Decidable (_ = _))
  | .sbrk .. | .exec .. => inferInstanceAs (Decidable (_ ∧ _))

def ThreadCall.run : ThreadCall → ThM Unit
  | fork p => do let _ ← Thread.fork p
  | clone p => do let _ ← Thread.clone p
  | exec p file argv => do let _ ← Thread.exec p file argv
  | sbrk p incr => do let _ ← Thread.sbrk p incr
  | exit p => Thread.exit p
  | reap p => freeproc p

/-- The calls of the processes, from `s₀` on. -/
def history (s₀ : Threads) : System Threads ThreadCall where
  init s := s = s₀
  step s call := if call.enabled s then ((call.run s).toOption.map Prod.snd) else none

section Steps
variable {s : Threads} {p : ProcId} {α : Type}

theorem setProc_runs (s : Threads) (p : ProcId) (f : ThreadProc → ThreadProc) :
    setProc p f s = .ok ((), { s with procs := Function.update s.procs p (f (s.procs p)) }) := rfl

theorem setTable_runs (s : Threads) (id : Nat) (t : Option PageTable) :
    setTable id t s = .ok ((), { s with tables := Function.update s.tables id t }) := rfl

theorem newTable_runs (s : Threads) (t : PageTable) :
    newTable t s = .ok (s.next, { s with tables := Function.update s.tables s.next (some t), next := s.next + 1 }) := rfl

/-- The table of a process that has one. -/
theorem tableOf_runs {id : Nat} {t : PageTable} (has : (s.procs p).pgt = some id) (table : s.tables id = some t) :
    tableOf p s = .ok ((id, t), s) := by
  unfold tableOf
  rw [bind_runs (get_runs s), has]
  dsimp only
  rw [table]
  rfl

/-- A function of `mm.c` is called. -/
theorem onKmem_after {f : MmM α} {post : α → Kallocator → Prop} (h : After f s.kmem post) :
    After (onKmem f) s fun a t => post a t.kmem ∧ t = { s with kmem := t.kmem } := by
  intro a t run
  unfold onKmem at run
  cases result : f s.kmem with
  | error e =>
    rw [result] at run
    cases run
  | ok r =>
    rw [result] at run
    cases run
    exact ⟨h _ _ result, rfl⟩

/-- It fails as that function does. -/
theorem onKmem_ends {bad : Fault → Prop} {f : MmM α} {post : α → Kallocator → Prop} (h : Ends bad f s.kmem post) :
    Ends bad (onKmem f) s fun a t => post a t.kmem ∧ t = { s with kmem := t.kmem } := by
  refine ⟨onKmem_after h.1, fun e fails => ?_⟩
  unfold onKmem at fails
  cases result : f s.kmem with
  | error e' =>
    rw [result] at fails
    cases fails
    exact h.2 _ result
  | ok r =>
    rw [result] at fails
    cases fails

/-- A slot that `newproc` fills. -/
def ThreadProc.filled (q : ThreadProc) (pid : Int) (stack : PageNo) (id : Nat) : ThreadProc :=
  { q with state := .CREATED, pid, kstack := some stack, pgt := some id }

/-- `newproc` takes two pages, or an allocation fails, or there is no slot. -/
theorem newproc_after (s : Threads) : After newproc s fun new t =>
    (new = none ∧ ((t.kmem.held = true ∧ t.next = s.next ∧ ∀ p, (t.procs p).state = .RUNNABLE → t.procs p = s.procs p) ∨
      t = s ∧ ∀ p, (s.procs p).state ≠ .UNUSED)) ∨
      ∃ p stack page, new = some p ∧ (s.procs p).state = .UNUSED ∧ t.kmem.free + 2 = s.kmem.free ∧ t.kmem.held = s.kmem.held ∧
        t = { kmem := t.kmem, tables := Function.update s.tables s.next (some (Table.empty page)), next := s.next + 1,
              procs := Function.update s.procs p ((s.procs p).filled s.nextpid stack s.next), nextpid := s.nextpid + 1 } := by
  unfold newproc
  refine After.step (get_runs s) ?_
  split
  case h_1 nothing =>
    refine After.pure (.inl ⟨rfl, .inr ⟨rfl, fun p unused => ?_⟩⟩)
    have other := List.find?_eq_none.1 nothing p (List.mem_finRange p)
    simp [unused] at other
  case h_2 new found =>
  have unused : (s.procs new).state = .UNUSED := by simpa using List.find?_some found
  have others : ∀ (q : ThreadProc) (p : ProcId), q.state = .CREATED → (Function.update s.procs new q p).state = .RUNNABLE →
      Function.update s.procs new q p = s.procs p := by
    intro q p created live
    apply Function.update_of_ne
    rintro rfl
    rw [Function.update_self, created] at live
    cases live
  refine After.step (setProc_runs ..) (After.step (modify_runs ..) ?_)
  refine (onKmem_after ((kalloc_ends _).1.and (kalloc_after _))).bind ?_
  rintro _ t ⟨⟨⟨taken, -⟩, ⟨rfl, held, -⟩ | ⟨stack, rfl, -, kept⟩⟩, same⟩
  · rw [same]
    refine After.step (setProc_runs ..) (After.pure (.inl ⟨rfl, .inl ⟨held, rfl, fun p live => ?_⟩⟩))
    simp only [Function.update_idem, Function.update_self] at live ⊢
    exact others _ p rfl live
  · rw [same]
    refine After.step (setProc_runs ..) ?_
    rw [if_neg (by simp)]
    refine (onKmem_after ((kalloc_ends _).1.and (kalloc_after _))).bind ?_
    rintro _ u ⟨⟨⟨taken', -⟩, ⟨rfl, held, -⟩ | ⟨page, rfl, -, kept'⟩⟩, same'⟩
    · rw [same']
      refine After.step (setProc_runs ..) (After.pure (.inl ⟨rfl, .inl ⟨held, rfl, fun p live => ?_⟩⟩))
      simp only [Function.update_idem, Function.update_self] at live ⊢
      exact others _ p rfl live
    · rw [same']
      refine After.step (newTable_runs ..) (After.step (setProc_runs ..) (After.pure (.inr ?_)))
      refine ⟨new, stack, page, rfl, unused, ?_, kept'.trans kept, ?_⟩
      · simp only [Option.elim_some] at taken taken'
        dsimp only
        omega
      · simp only [Function.update_idem, Function.update_self]
        rfl

end Steps

theorem history_step {s₀ s t : Threads} {call : ThreadCall} :
    (history s₀).step s call = some t ↔ call.enabled s ∧ ∃ r, call.run s = .ok (r, t) := by
  show (if call.enabled s then ((call.run s).toOption.map Prod.snd) else none) = some t ↔ _
  split
  case isFalse off => exact iff_of_false nofun fun on => off on.1
  case isTrue on =>
    cases call.run s with
    | error e => exact iff_of_false nofun (by simp)
    | ok r =>
      obtain ⟨r, u⟩ := r
      constructor
      · intro same
        cases same
        exact ⟨on, r, rfl⟩
      · rintro ⟨-, r', same⟩
        cases same
        rfl

end Aarch64Os.Kernel.Thread
