import Mathlib

/-!
# The process table (`include/proc.h`, `kernel/proc.c`)

`struct proc` with the fields the modelled code reads or writes, and the operations
that work on the whole table. A pointer to a process is its slot number; slot 0 is
`initproc`. The saved registers, the trap frame and the name are left out: nothing
modelled depends on them.
-/

namespace Aarch64Os.Kernel
set_option autoImplicit false

/-- `NPROC`: the number of slots. -/
abbrev NPROC : Nat := 256

/-- `NOFILE`: descriptors of one process. -/
abbrev NOFILE : Nat := 16

/-- `NFILE`: slots of the file table. -/
abbrev NFILE : Nat := 128

instance : NeZero NPROC := ⟨by decide⟩
instance : NeZero NOFILE := ⟨by decide⟩
instance : NeZero NFILE := ⟨by decide⟩

/-- A `struct proc *`. -/
abbrev ProcId := Fin NPROC

/-- A descriptor number that has passed the bounds check of `fget`. -/
abbrev Fd := Fin NOFILE

/-- A `struct file *`. -/
abbrev FileId := Fin NFILE

/-- A `struct inode *`, as a slot of the inode table. -/
abbrev InodeId := Nat

/-- A physical page, by its number. -/
abbrev PageNo := Nat

/-- `enum procstate`. -/
inductive ProcState
  | UNUSED
  | CREATED
  | RUNNING
  | RUNNABLE
  | SLEEPING
  | ZOMBIE
  deriving DecidableEq

/-- A `void *` to sleep on: a process slot, or some other address. -/
inductive Chan
  | proc (p : ProcId)
  | addr (a : Nat)
  deriving DecidableEq

/-- `struct proc`. -/
structure Proc where
  state : ProcState
  ret : Int
  pid : Int
  size : Nat
  chan : Option Chan
  parent : Option ProcId
  kstack : Option PageNo
  pgt : Option PageNo
  cwd : Option InodeId
  ofile : Fd → Option FileId
  th : Bool
  sig : Int

/-- A slot after `memset(p, 0, sizeof(*p))`. -/
def Proc.zero : Proc where
  state := .UNUSED
  ret := 0
  pid := 0
  size := 0
  chan := none
  parent := none
  kstack := none
  pgt := none
  cwd := none
  ofile := fun _ => none
  th := false
  sig := 0

/-- `proctable.procs`. -/
abbrev Procs := ProcId → Proc

/-- `initproc`, an alias of `&proctable.procs[0]`. -/
def initproc : ProcId := 0

/-- Change one slot. -/
def Procs.set (procs : Procs) (p : ProcId) (f : Proc → Proc) : Procs := Function.update procs p (f (procs p))

/-- The first slot that satisfies `test`, as the scanning loops find it. -/
def Procs.find (procs : Procs) (test : Proc → Bool) : Option ProcId :=
  (List.finRange NPROC).find? fun p => test (procs p)

/-- The part of `newproc` under `proctable.lk`: take the first `UNUSED` slot. -/
def Procs.claim (procs : Procs) : Option (ProcId × Procs) :=
  (procs.find fun p => p.state = .UNUSED).map fun p => (p, procs.set p fun q => { q with state := .CREATED })

/-- The rest of `newproc`, with the results of its two `kalloc` calls: it gives up as soon
as one of them is `NULL`, and then the slot keeps what it has been given. -/
def Procs.fill (procs : Procs) (p : ProcId) (pid : Int) (kstack pgt : Option PageNo) : Option ProcId × Procs :=
  match kstack with
  | none => (none, procs.set p fun q => { q with pid := pid, kstack := none })
  | some k => (pgt.map fun _ => p, procs.set p fun q => { q with pid := pid, kstack := some k, pgt := pgt })

/-- `freeproc`, without the page it returns. -/
def Procs.freeproc (procs : Procs) (p : ProcId) : Procs := procs.set p fun _ => Proc.zero

/-- `reparent`: the children of `pp` become children of `initproc`. -/
def Procs.reparent (procs : Procs) (pp : ProcId) : Procs := fun p =>
  if (procs p).parent = some pp then { procs p with parent := some initproc } else procs p

/-- `wakeup_acquired`. -/
def Procs.wakeupAcquired (procs : Procs) (chan : Option Chan) : Procs := fun p =>
  if (procs p).state = .SLEEPING ∧ (procs p).chan = chan then { procs p with state := .RUNNABLE } else procs p

/-- The critical section of `exitproc`, up to its `cswitch`: hand over the children, wake
the parent, become a zombie. -/
def Procs.exitproc (procs : Procs) (p : ProcId) : Procs :=
  let procs := procs.reparent p
  let procs := procs.wakeupAcquired ((procs p).parent.map .proc)
  procs.set p fun q => { q with state := .ZOMBIE }

@[simp] theorem Procs.set_self (procs : Procs) (p : ProcId) (f : Proc → Proc) :
    procs.set p f p = f (procs p) := Function.update_self ..

theorem Procs.set_ne (procs : Procs) {p q : ProcId} (f : Proc → Proc) (ne : q ≠ p) :
    procs.set p f q = procs q := Function.update_of_ne ne ..

@[simp] theorem Procs.set_set (procs : Procs) (p : ProcId) (f g : Proc → Proc) :
    (procs.set p f).set p g = procs.set p fun q => g (f q) := by
  simp [Procs.set]

theorem Procs.set_apply (procs : Procs) (p q : ProcId) (f : Proc → Proc) :
    procs.set p f q = if q = p then f (procs p) else procs q := Function.update_apply ..

theorem Procs.find_some {procs : Procs} {test : Proc → Bool} {p : ProcId} (h : procs.find test = some p) :
    test (procs p) = true := by
  simpa using List.find?_some h

theorem Procs.wakeupAcquired_cases (procs : Procs) (chan : Option Chan) (p : ProcId) :
    procs.wakeupAcquired chan p = procs p ∨
      (procs p).state = .SLEEPING ∧ procs.wakeupAcquired chan p = { procs p with state := .RUNNABLE } := by
  unfold Procs.wakeupAcquired
  split
  case isTrue h => exact .inr ⟨h.1, rfl⟩
  case isFalse => exact .inl rfl

/-- `reparent` writes parents only. -/
theorem Procs.reparent_eq (procs : Procs) (pp p : ProcId) :
    ∃ parent, procs.reparent pp p = { procs p with parent := parent } := by
  unfold Procs.reparent
  split
  · exact ⟨_, rfl⟩
  · exact ⟨(procs p).parent, rfl⟩

/-- The parent of `x` after `reparent`. -/
def Procs.heir (procs : Procs) (pp x : ProcId) : Option ProcId :=
  if (procs x).parent = some pp then some initproc else (procs x).parent

theorem Procs.reparent_apply (procs : Procs) (pp x : ProcId) :
    procs.reparent pp x = { procs x with parent := procs.heir pp x } := by
  unfold Procs.reparent Procs.heir
  split <;> rfl

/-- The process itself after its exit. -/
theorem Procs.exitproc_self (procs : Procs) (p : ProcId) :
    procs.exitproc p p = { procs p with parent := procs.heir p p, state := .ZOMBIE } := by
  simp only [Procs.exitproc, Procs.set_self, Procs.wakeupAcquired, Procs.reparent_apply]
  split <;> rfl

/-- The other slots after an exit: their parent is gone, and the parent of `p` is awake. -/
theorem Procs.exitproc_ne (procs : Procs) {p q : ProcId} (ne : q ≠ p) :
    procs.exitproc p q = { procs q with
      parent := procs.heir p q
      state := if (procs q).state = .SLEEPING ∧ (procs q).chan = (procs.heir p p).map .proc then .RUNNABLE
        else (procs q).state } := by
  simp only [Procs.exitproc, Procs.set_ne _ _ ne, Procs.wakeupAcquired, Procs.reparent_apply]
  split <;> rfl

/-- `newproc` takes a slot nobody uses. -/
theorem Procs.claim_some {procs procs' : Procs} {p : ProcId} (h : procs.claim = some (p, procs')) :
    (procs p).state = .UNUSED ∧ procs' = procs.set p fun q => { q with state := .CREATED } := by
  obtain ⟨slot, found, eq⟩ := Option.map_eq_some_iff.1 h
  obtain ⟨rfl, rfl⟩ := Prod.mk.inj eq
  exact ⟨by simpa using Procs.find_some found, rfl⟩

/-- What `newproc` writes into the slot. -/
theorem Procs.fill_snd (procs : Procs) (p : ProcId) (pid : Int) (kstack pgt : Option PageNo) :
    (procs.fill p pid kstack pgt).2 =
      procs.set p fun q => { q with pid := pid, kstack := kstack, pgt := if kstack.isSome then pgt else q.pgt } := by
  cases kstack <;> rfl

/-- Filling the slot touches neither its descriptors nor its state. -/
theorem Procs.fill_eq (procs : Procs) (p : ProcId) (pid : Int) (kstack pgt : Option PageNo) :
    ∃ g : Proc → Proc, (∀ q, (g q).ofile = q.ofile ∧ (g q).state = q.state) ∧
      (procs.fill p pid kstack pgt).2 = procs.set p g ∧
      ∀ new, (procs.fill p pid kstack pgt).1 = some new → p = new := by
  cases kstack with
  | none =>
    refine ⟨fun q => { q with pid := pid, kstack := none }, fun q => ⟨rfl, rfl⟩, rfl, fun new h => ?_⟩
    simp [Procs.fill] at h
  | some k =>
    refine ⟨fun q => { q with pid := pid, kstack := some k, pgt := pgt }, fun q => ⟨rfl, rfl⟩, rfl, fun new h => ?_⟩
    cases pgt with
    | none => simp [Procs.fill] at h
    | some t => simpa [Procs.fill] using h

end Aarch64Os.Kernel
