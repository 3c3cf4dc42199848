import Mathlib
import Aarch64Os.Base.Transition
import Aarch64Os.Kernel.Proc

/-!
# Processes on CPUs (`kernel/proc.c`)

Any number of CPUs run the scheduler and the processes it picks. Every critical section
under `proctable.lk` is one step. A section that ends in `cswitch` leaves the lock with the
scheduler of its CPU, which looks through the slots after the one it had picked and then
either picks the next process, whose first act is to release the lock, or releases it
itself. What a process does outside these sections and does not touch the table is left out.
-/

namespace Aarch64Os.Kernel.Tasks
set_option autoImplicit false
open Base

/-- A call that sleeps until there is a zombie to reap; `status` says that the pointer is not null. -/
inductive Wait
  | wait (status : Bool)
  | waitpid (pid : Int) (status : Bool)
  deriving DecidableEq

/-- The test of the loop on one slot, apart from its state. -/
def Wait.awaits (k : Wait) (p : ProcId) (z : Proc) : Bool :=
  match k with
  | .wait _ => z.parent = some p
  | .waitpid pid _ => z.pid = pid

/-- The call has a pointer to store the exit value at. -/
def Wait.status : Wait → Bool
  | .wait status | .waitpid _ status => status

/-- Where a process is in the functions of `kernel/proc.c`. -/
inductive Pc
  /-- in none of them, or in one that has yielded -/
  | out
  /-- in `newproc`, with a slot, before `newpid` -/
  | newborn (new : ProcId) (th : Bool)
  /-- in `fork` or `clone`, before the slot is published -/
  | copying (new : ProcId) (th : Bool)
  /-- at the start of the loop of `wait` or `waitpid` -/
  | loop (k : Wait)
  /-- in `sleep`, called from a loop or from elsewhere -/
  | asleep (k : Option Wait)
  /-- in `sleep`, before the signal check -/
  | woken (k : Option Wait)
  /-- in `killproc` for the process with this number, before `sig` is set -/
  | killing (pid : Int) (target : ProcId) (sig : Int)
  /-- in `killproc`, after `sig` has been set -/
  | rousing (pid : Int) (target : ProcId)
  /-- in `exitproc`, before it takes the lock -/
  | exiting
  /-- has left through `exitproc` -/
  | dead
  deriving DecidableEq

/-- A CPU. -/
inductive Cpu
  /-- in the scheduler, without the lock -/
  | idle
  /-- in the scheduler, at the start of its loop over the slots -/
  | scan
  /-- back in the scheduler from `p`, which `cpu->proc` still points to -/
  | back (p : ProcId)
  /-- in `p` -/
  | run (p : ProcId)
  deriving DecidableEq

/-- `cpu->proc`. -/
def Cpu.proc : Cpu → Option ProcId
  | .idle | .scan => none
  | .back p | .run p => some p

/-- The slot the loop of `schedule` looks at next. -/
def Cpu.slot : Cpu → Option Nat
  | .scan => some 0
  | .back p => some (p + 1)
  | .idle | .run _ => none

/-- What has happened, for those who look at a whole run. -/
inductive Event
  /-- a process has called `exitproc` -/
  | exit (pid ret : Int)
  /-- a slot has been reaped, with the outcome of `copyout`, the result of the call and what it has stored -/
  | reap (caller : ProcId) (k : Wait) (child : Proc) (copied : Bool) (result : Int) (stored : Option Int)
  /-- `killproc` for the process with number `pid` has changed a slot -/
  | kill (pid : Int) (target : Proc)

/-- The process table and all that runs around it. `lk` is the CPU that holds `proctable.lk`
between two steps; `log` is history, latest first. -/
structure State (C : Type) where
  procs : Procs
  cpu : C → Cpu
  lk : Option C
  pc : ProcId → Pc
  nextpid : Int
  panicked : Option String
  log : List Event

/-- What the process on a CPU does next. -/
inductive Act
  | yield
  | sleep (a : Nat)
  | fork (th : Bool)
  | newpid (kstack pgt : Option PageNo)
  | publish
  | fail
  | wait (k : Wait)
  | look (copied : Bool)
  | exit (ret : Int)
  | sigcheck
  | die
  | kill (pid sig : Int)
  | signal
  | rouse

/-- A step of the process on a CPU, of the scheduler of a CPU, or a `wakeup` by a driver. -/
inductive Label (C : Type)
  | act (c : C) (a : Act)
  | start (c : C)
  | scan (c : C)
  | wakeup (a : Nat)

/-- The next slot the loop of `schedule` picks, from slot `i` on. -/
def next (procs : Procs) (i : Nat) : Option ProcId :=
  (List.finRange NPROC).find? fun p => i ≤ p ∧ (procs p).state = .RUNNABLE

/-- The first slot the loop of `wait` or `waitpid` reaps. -/
def reapable (procs : Procs) (p : ProcId) (k : Wait) : Option ProcId :=
  procs.find fun z => k.awaits p z ∧ z.state = .ZOMBIE

/-- Where a process goes on when it is picked. -/
def Pc.resume : Pc → Pc
  | .asleep k => .woken k
  | pc => pc

/-- The process is in `sleep`. -/
def Pc.sleeps : Pc → Bool
  | .asleep _ => true
  | _ => false

/-- The slot a process is filling for its child. -/
def Pc.child : Pc → Option ProcId
  | .newborn new _ | .copying new _ => some new
  | _ => none

section Steps
variable {C : Type} [DecidableEq C]

/-- Move process `p`. -/
def State.go (s : State C) (p : ProcId) (pc : Pc) : State C := { s with pc := Function.update s.pc p pc }

/-- Change one slot. -/
def State.set (s : State C) (p : ProcId) (f : Proc → Proc) : State C := { s with procs := s.procs.set p f }

/-- A critical section under `proctable.lk`. -/
def State.locked (s : State C) (t : State C) : Option (State C) := if s.lk.isSome then none else some t

/-- `cswitch` to the scheduler of CPU `c`, which had picked `p`. -/
def State.cswitch (s : State C) (c : C) (p : ProcId) : State C :=
  { s with cpu := Function.update s.cpu c (.back p), lk := some c }

section Updates
variable (s : State C) (c d : C) (p q : ProcId) (pc : Pc) (f : Proc → Proc)

omit [DecidableEq C] in
@[simp] theorem State.go_procs : (s.go p pc).procs = s.procs := rfl

omit [DecidableEq C] in
@[simp] theorem State.go_cpu : (s.go p pc).cpu = s.cpu := rfl

omit [DecidableEq C] in
theorem State.go_pc : (s.go p pc).pc q = if q = p then pc else s.pc q := Function.update_apply ..

omit [DecidableEq C] in
@[simp] theorem State.set_procs : (s.set p f).procs = s.procs.set p f := rfl

omit [DecidableEq C] in
@[simp] theorem State.set_cpu : (s.set p f).cpu = s.cpu := rfl

omit [DecidableEq C] in
@[simp] theorem State.set_pc : (s.set p f).pc = s.pc := rfl

omit [DecidableEq C] in
/-- The process is there already. -/
theorem State.go_self {s : State C} {p : ProcId} {pc : Pc} (h : s.pc p = pc) : s.go p pc = s := by
  subst h
  simp only [State.go, Function.update_eq_self]

@[simp] theorem State.cswitch_procs : (s.cswitch c p).procs = s.procs := rfl

@[simp] theorem State.cswitch_pc : (s.cswitch c p).pc = s.pc := rfl

theorem State.cswitch_cpu : (s.cswitch c p).cpu d = if d = c then .back p else s.cpu d :=
  Function.update_apply ..

end Updates

/-- `sleep`, up to its `cswitch`. -/
def State.sleep (s : State C) (c : C) (p : ProcId) (chan : Chan) (k : Option Wait) : State C :=
  ((s.set p fun q => { q with chan := some chan, state := .SLEEPING }).go p (.asleep k)).cswitch c p

/-- `exitproc`, up to where it takes the lock. -/
def State.exitproc (s : State C) (p : ProcId) (ret : Int) : State C :=
  if (s.procs p).pid = 0 then { s with panicked := some "init exit" }
  else { (s.set p fun q => { q with ret := ret }).go p .exiting with log := .exit (s.procs p).pid ret :: s.log }

/-- `sigcheck`, which goes on to `pc` when there is no signal. -/
def State.sigcheck (s : State C) (p : ProcId) (pc : Pc) : State C :=
  if (s.procs p).sig ≠ 0 then (s.set p fun q => { q with sig := 0 }).exitproc p 1 else s.go p pc

/-- The critical section that publishes a child: `fork`, and `clone` with `th` set. -/
def State.publish (s : State C) (p new : ProcId) (th : Bool) : State C :=
  ((s.set new fun q => { q with state := .RUNNABLE, parent := some p, th := th || q.th }).go p .out).go new .out

/-- `p` reaps slot `z`; `copied` is the outcome of `copyout`. -/
def State.reap (s : State C) (p z : ProcId) (k : Wait) (copied : Bool) : State C :=
  { s.go p .out with
    procs := s.procs.freeproc z
    log := .reap p k (s.procs z) copied (if k.status && !copied then -1 else (s.procs z).pid)
      (if k.status && copied then some (s.procs z).ret else none) :: s.log }

/-- The critical section of `wait` and `waitpid`: reap a zombie, or sleep. -/
def State.look (s : State C) (c : C) (p : ProcId) (k : Wait) (copied : Bool) : State C :=
  match reapable s.procs p k with
  | some z => s.reap p z k copied
  | none => s.sleep c p (.proc p) (some k)

/-- The critical section of `exitproc`. -/
def State.die (s : State C) (c : C) (p : ProcId) : State C :=
  ({ s with procs := s.procs.exitproc p }.go p .dead).cswitch c p

/-- The critical section of `newproc`. -/
def State.newproc (s : State C) (p : ProcId) (th : Bool) : State C :=
  match s.procs.claim with
  | some (new, procs) => { s.go p (.newborn new th) with procs := procs }
  | none => s

/-- `newproc` after that section, with the results of `kalloc`. -/
def State.newpid (s : State C) (p new : ProcId) (th : Bool) (kstack pgt : Option PageNo) : State C :=
  let (got, procs) := s.procs.fill new s.nextpid kstack pgt
  { s.go p (if got.isSome then .copying new th else .out) with procs := procs, nextpid := s.nextpid + 1 }

/-- `pget`, called by `kill`. -/
def State.pget (s : State C) (p : ProcId) (pid sig : Int) : State C :=
  match s.procs.find fun q => q.pid = pid with
  | some target => s.go p (.killing pid target sig)
  | none => s

/-- `p->sig = sig` in `killproc`. -/
def State.signal (s : State C) (p target : ProcId) (pid sig : Int) : State C :=
  { (s.set target fun q => { q with sig := sig }).go p (.rousing pid target) with
    log := .kill pid (s.procs target) :: s.log }

/-- The critical section of `killproc`. -/
def State.rouse (s : State C) (p target : ProcId) (pid : Int) : State C :=
  if (s.procs target).state = .SLEEPING then
    { (s.set target fun q => { q with state := .RUNNABLE }).go p .out with log := .kill pid (s.procs target) :: s.log }
  else s.go p .out

/-- Process `p` on CPU `c` takes a step. -/
def State.act (s : State C) (c : C) (p : ProcId) (a : Act) : Option (State C) :=
  match a, s.pc p with
  | .yield, .out => s.locked ((s.set p fun q => { q with state := .RUNNABLE }).cswitch c p)
  | .sleep a, .out => s.locked (s.sleep c p (.addr a) none)
  | .fork th, .out => s.locked (s.newproc p th)
  | .newpid kstack pgt, .newborn new th => some (s.newpid p new th kstack pgt)
  | .publish, .copying new th => s.locked (s.publish p new th)
  | .fail, .copying new false => s.locked ({ s with procs := s.procs.freeproc new }.go p .out)
  | .wait k, .out => some (s.go p (.loop k))
  | .look copied, .loop k => s.locked (s.look c p k copied)
  | .exit ret, .out => some (s.exitproc p ret)
  | .sigcheck, .out => some (s.sigcheck p .out)
  | .sigcheck, .woken k => some (s.sigcheck p (k.elim .out .loop))
  | .die, .exiting => s.locked (s.die c p)
  | .kill pid sig, .out => s.locked (s.pget p pid sig)
  | .signal, .killing pid target sig => some (s.signal p target pid sig)
  | .rouse, .rousing pid target => s.locked (s.rouse p target pid)
  | _, _ => none

/-- `schedule` picks `p`, which goes on and releases the lock. -/
def State.pick (s : State C) (c : C) (p : ProcId) : State C :=
  { s.set p fun q => { q with
      state := .RUNNING
      chan := if (s.pc p).sleeps then none else q.chan } with
    cpu := Function.update s.cpu c (.run p)
    lk := none
    pc := Function.update s.pc p (s.pc p).resume }

theorem State.pick_pc (s : State C) (c : C) (p q : ProcId) : (s.pick c p).pc q = if q = p then (s.pc p).resume else s.pc q :=
  Function.update_apply ..

/-- The step function; a panic stops the machine. -/
def State.step (s : State C) (l : Label C) : Option (State C) :=
  if s.panicked.isSome then none
  else
    match l with
    | .act c a =>
      match s.cpu c with
      | .run p => s.act c p a
      | _ => none
    | .start c => if s.cpu c = .idle then s.locked { s with cpu := Function.update s.cpu c .scan, lk := some c } else none
    | .scan c =>
      match (s.cpu c).slot with
      | some i =>
        some (match next s.procs i with
          | some p => s.pick c p
          | none => { s with cpu := Function.update s.cpu c .idle, lk := none })
      | _ => none
    | .wakeup a => s.locked { s with procs := s.procs.wakeupAcquired (some (.addr a)) }

/-- `initproc` is published and every CPU is in the scheduler. -/
def State.boot : State C where
  procs := Procs.set (fun _ => Proc.zero) initproc fun q => { q with state := .RUNNABLE }
  cpu := fun _ => .idle
  lk := none
  pc := fun _ => .out
  nextpid := 1
  panicked := none
  log := []

/-- The processes of the machine. -/
def procSystem (C : Type) [DecidableEq C] : System (State C) (Label C) where
  init s := s = State.boot
  step := State.step

/-- The step applies `freeproc` to `z`. -/
def Frees (s : State C) (l : Label C) (z : ProcId) : Prop :=
  match l with
  | .act c (.look _) => ∃ p k, s.cpu c = .run p ∧ s.pc p = .loop k ∧ reapable s.procs p k = some z
  | .act c .fail => ∃ p, s.cpu c = .run p ∧ s.pc p = .copying z false
  | _ => False

/-- What the process on a CPU can do, one constructor for every branch. -/
inductive Does (s : State C) (c : C) (p : ProcId) : Act → State C → Prop
  | yield : s.lk = none → s.pc p = .out →
      Does s c p .yield ((s.set p fun q => { q with state := .RUNNABLE }).cswitch c p)
  | sleep (a : Nat) : s.lk = none → s.pc p = .out → Does s c p (.sleep a) (s.sleep c p (.addr a) none)
  | fork (th : Bool) : s.lk = none → s.pc p = .out → Does s c p (.fork th) (s.newproc p th)
  | newpid {new : ProcId} {th : Bool} (kstack pgt : Option PageNo) : s.pc p = .newborn new th →
      Does s c p (.newpid kstack pgt) (s.newpid p new th kstack pgt)
  | publish {new : ProcId} {th : Bool} : s.lk = none → s.pc p = .copying new th →
      Does s c p .publish (s.publish p new th)
  | fail {new : ProcId} : s.lk = none → s.pc p = .copying new false →
      Does s c p .fail ({ s with procs := s.procs.freeproc new }.go p .out)
  | wait (k : Wait) : s.pc p = .out → Does s c p (.wait k) (s.go p (.loop k))
  | look {k : Wait} (copied : Bool) : s.lk = none → s.pc p = .loop k → Does s c p (.look copied) (s.look c p k copied)
  | exit (ret : Int) : s.pc p = .out → Does s c p (.exit ret) (s.exitproc p ret)
  | sigcheck : s.pc p = .out → Does s c p .sigcheck (s.sigcheck p .out)
  | woken {k : Option Wait} : s.pc p = .woken k → Does s c p .sigcheck (s.sigcheck p (k.elim .out .loop))
  | die : s.lk = none → s.pc p = .exiting → Does s c p .die (s.die c p)
  | kill (pid sig : Int) : s.lk = none → s.pc p = .out → Does s c p (.kill pid sig) (s.pget p pid sig)
  | signal {target : ProcId} {pid sig : Int} : s.pc p = .killing pid target sig →
      Does s c p .signal (s.signal p target pid sig)
  | rouse {target : ProcId} {pid : Int} : s.lk = none → s.pc p = .rousing pid target →
      Does s c p .rouse (s.rouse p target pid)

/-- What each label can do. -/
inductive Step (s : State C) : Label C → State C → Prop
  | act {c : C} {p : ProcId} {a : Act} {t : State C} : s.cpu c = .run p → Does s c p a t → Step s (.act c a) t
  | start {c : C} : s.lk = none → s.cpu c = .idle →
      Step s (.start c) { s with cpu := Function.update s.cpu c .scan, lk := some c }
  | pick {c : C} {i : Nat} {p : ProcId} : (s.cpu c).slot = some i → next s.procs i = some p → Step s (.scan c) (s.pick c p)
  | stop {c : C} {i : Nat} : (s.cpu c).slot = some i → next s.procs i = none →
      Step s (.scan c) { s with cpu := Function.update s.cpu c .idle, lk := none }
  | wakeup (a : Nat) : s.lk = none →
      Step s (.wakeup a) { s with procs := s.procs.wakeupAcquired (some (.addr a)) }

omit [DecidableEq C] in
theorem State.locked_some {s t u : State C} (h : s.locked t = some u) : s.lk = none ∧ t = u := by
  unfold State.locked at h
  split at h
  · simp at h
  · exact ⟨by simpa using ‹¬ s.lk.isSome = true›, Option.some.inj h⟩

/-- Inversion of a process's step. -/
theorem State.act_inv {s t : State C} {c : C} {p : ProcId} {a : Act} (h : s.act c p a = some t) : Does s c p a t := by
  unfold State.act at h
  split at h
  case h_1 pc => obtain ⟨free, rfl⟩ := State.locked_some h; exact .yield free pc
  case h_2 a pc => obtain ⟨free, rfl⟩ := State.locked_some h; exact .sleep a free pc
  case h_3 th pc => obtain ⟨free, rfl⟩ := State.locked_some h; exact .fork th free pc
  case h_4 kstack pgt new th pc => obtain rfl := Option.some.inj h; exact .newpid kstack pgt pc
  case h_5 new th pc => obtain ⟨free, rfl⟩ := State.locked_some h; exact .publish free pc
  case h_6 new pc => obtain ⟨free, rfl⟩ := State.locked_some h; exact .fail free pc
  case h_7 k pc => obtain rfl := Option.some.inj h; exact .wait k pc
  case h_8 copied k pc => obtain ⟨free, rfl⟩ := State.locked_some h; exact .look copied free pc
  case h_9 ret pc => obtain rfl := Option.some.inj h; exact .exit ret pc
  case h_10 pc => obtain rfl := Option.some.inj h; exact .sigcheck pc
  case h_11 k pc => obtain rfl := Option.some.inj h; exact .woken pc
  case h_12 pc => obtain ⟨free, rfl⟩ := State.locked_some h; exact .die free pc
  case h_13 pid sig pc => obtain ⟨free, rfl⟩ := State.locked_some h; exact .kill pid sig free pc
  case h_14 pid target sig pc => obtain rfl := Option.some.inj h; exact .signal pc
  case h_15 pid target pc => obtain ⟨free, rfl⟩ := State.locked_some h; exact .rouse free pc
  case h_16 => simp at h

/-- **Inversion of the step function.** -/
theorem State.step_inv {s t : State C} {l : Label C} (h : s.step l = some t) : Step s l t := by
  unfold State.step at h
  split at h
  · simp at h
  cases l with
  | act c a =>
    simp only at h
    split at h
    · exact .act ‹_› (State.act_inv h)
    · simp at h
  | start c =>
    simp only at h
    split at h
    · obtain ⟨free, rfl⟩ := State.locked_some h
      exact .start free ‹_›
    · simp at h
  | scan c =>
    simp only at h
    split at h
    · obtain rfl := Option.some.inj h
      split
      · exact .pick ‹_› ‹_›
      · exact .stop ‹_› ‹_›
    · simp at h
  | wakeup a =>
    obtain ⟨free, rfl⟩ := State.locked_some h
    exact .wakeup a free

/-- The slot that is picked is `RUNNABLE`. -/
theorem next_runnable {procs : Procs} {i : Nat} {p : ProcId} (h : next procs i = some p) : (procs p).state = .RUNNABLE := by
  have found := List.find?_some h
  simp only [decide_eq_true_eq] at found
  exact found.2

end Steps

end Aarch64Os.Kernel.Tasks
