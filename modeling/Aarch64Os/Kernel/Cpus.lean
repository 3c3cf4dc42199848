import Aarch64Os.Base.Transition
import Aarch64Os.Kernel.ProcSystem

/-!
# Locks and interrupts of the CPUs (`kernel/spinlock.c`, `kernel/proc.c`, `kernel/trap.c`)

Any number of CPUs, each with its interrupt mask, its `cli_depth` and its `intr_enabled`, run their
schedulers and the processes that these pick. A thread is what it still has to do: the statements of the
functions it is in that touch a lock, the mask or the process table. All else is left out, and a branch
that depends on it may go either way: whether a request of the disk is done, whether `kalloc` finds a page,
what a process calls next. A `cswitch` is one step with the statements before it that write to the slot.
What is between the statements of `pushcli` no other CPU sees, and an interrupt there finds the depth 1 and
leaves all as it was, so it is one step as well.
-/

namespace Aarch64Os.Kernel.Cpus
set_option autoImplicit false
open Base Tasks

/-- The spinlocks of the kernel. -/
inductive Lock
  | proctable
  | pidalloc
  | disk
  | cs
  | kallocator
  | bcache
  | itable
  | ftable
  | printk
  deriving DecidableEq

instance : Fintype Lock where
  elems := {.proctable, .pidalloc, .disk, .cs, .kallocator, .bcache, .itable, .ftable, .printk}
  complete l := by cases l <;> decide

/-- A statement. -/
inductive Op
  | pushcli
  | popcli
  /-- the rest of `acquire` -/
  | take (l : Lock)
  /-- what is before `popcli` in `release` -/
  | drop (l : Lock)
  /-- `enable_irq`, in `schedule` -/
  | enable
  /-- the loop of `schedule`, from slot `i` on -/
  | scan (i : Nat)
  /-- `p->state = RUNNABLE`, and `cswitch` -/
  | yield
  /-- `p->chan = chan`, `p->state = SLEEPING`, and `cswitch` -/
  | sleep (chan : Chan)
  /-- `reparent`, `wakeup_acquired`, `p->state = ZOMBIE`, and `cswitch` -/
  | die
  /-- `p->chan = NULL` -/
  | chanNull
  | sigcheck
  /-- the start of `exitproc` -/
  | exiting (ret : Int)
  /-- functions that take locks and give them back -/
  | works
  /-- the loop of `virtio_blk_op` -/
  | poll (buf : Nat)
  /-- the critical section of `wait` and `waitpid` -/
  | look (k : Wait)
  | wakeupAcquired (chan : Chan)
  /-- the critical section of `pget`, called by `kill` -/
  | pget (pid sig : Int)
  /-- `p->sig = sig` in `killproc` -/
  | setSig (target : ProcId) (sig : Int)
  /-- the critical section of `killproc` -/
  | rouse (target : ProcId)
  /-- the critical section of `newproc` -/
  | claim
  /-- the rest of `newproc`, with the results of `newpid` and `kalloc` -/
  | fill (new : ProcId) (pid : Int) (kstack pgt : Option PageNo)
  /-- the critical sections of `fork` and `clone` -/
  | publish (new : ProcId) (th : Bool)
  | fail (new : ProcId)
  /-- `kalloc` behind `acquire` -/
  | unlink
  /-- the test for the timer in `uirq_handler` -/
  | tick
  /-- return from an exception, to the user or to the kernel -/
  | eret
  | iret
  | panic (msg : String)
  deriving DecidableEq

/-- A `cswitch` to the scheduler. -/
def Op.switches : Op → Bool
  | .yield | .sleep _ | .die => true
  | _ => false

def acquire (l : Lock) : List Op := [.pushcli, .take l]

def release (l : Lock) : List Op := [.drop l, .popcli]

/-- `sleep`. -/
def sleep (chan : Chan) (lk : Lock) : List Op :=
  (if lk ≠ .proctable then acquire .proctable ++ release lk else []) ++ .sleep chan :: .chanNull ::
    (release .proctable ++ ((if lk ≠ .proctable then acquire lk else []) ++ [.sigcheck]))

/-- `yield`. -/
def yield : List Op := acquire .proctable ++ .yield :: release .proctable

/-- `exitproc`: it frees the pages of the process and closes its files, then takes the lock. -/
def exitproc (ret : Int) : List Op := .exiting ret :: .works :: (acquire .proctable ++ [.die, .panic "unreachable"])

/-- `killproc`. -/
def killproc (target : ProcId) (sig : Int) : List Op :=
  .setSig target sig :: (acquire .proctable ++ .rouse target :: release .proctable)

/-- The loop of `schedule`. -/
def schedule : List Op := .enable :: (acquire .proctable ++ [.scan 0])

/-- What a function does that takes locks, calls `wakeup_acquired` and gives the locks back. -/
inductive WorkOp
  | acquire (l : Lock)
  | release (l : Lock)
  | wakeup (a : Nat)
  deriving DecidableEq

/-- All locks are given back, those held before included, and none that is not held. -/
def closes : List Lock → List WorkOp → Bool
  | held, [] => held.isEmpty
  | held, .acquire l :: w => closes (l :: held) w
  | held, .release l :: w => held.contains l && closes (held.erase l) w
  | held, .wakeup _ :: w => held.contains .proctable && closes held w

/-- Any nesting of critical sections. -/
abbrev Work := { w : List WorkOp // closes [] w = true }

def WorkOp.ops : WorkOp → List Op
  | .acquire l => Cpus.acquire l
  | .release l => Cpus.release l
  | .wakeup a => [.wakeupAcquired (.addr a)]

def Work.ops (w : Work) : List Op := w.1.flatMap WorkOp.ops

/-- `kfree`. -/
def kfree : Work := ⟨[.acquire .kallocator, .release .kallocator], by decide⟩

/-- `printk`. -/
def printk : Work := ⟨[.acquire .printk, .release .printk], by decide⟩

/-- What a process calls in the kernel; the addresses are those it sleeps on. -/
inductive Call
  /-- functions that take locks and give them back -/
  | work (w : Work)
  | kalloc
  | virtio_blk_op (buf : Nat)
  | csread (buf : Nat)
  | wait (k : Wait)
  | kill (pid sig : Int)
  /-- for a fault -/
  | killproc (target : ProcId) (sig : Int)
  | newproc
  | fill (new : ProcId) (pid : Int) (kstack pgt : Option PageNo)
  | publish (new : ProcId) (th : Bool)
  /-- the end of `fork` that frees the slot -/
  | fail (new : ProcId)
  | exit (status : Int)
  /-- the end of `usync_handler` -/
  | ret
  /-- `trapret`, behind `schedule_tail` -/
  | trapret

def Call.code : Call → List Op
  | work w => w.ops
  | kalloc => acquire .kallocator ++ [.unlink]
  | virtio_blk_op buf => acquire .disk ++ .poll buf :: release .disk
  | csread buf => acquire .cs ++ (sleep (.addr buf) .cs ++ release .cs)
  | wait k => acquire .proctable ++ [.look k]
  | kill pid sig => acquire .proctable ++ [.pget pid sig]
  | killproc target sig => Cpus.killproc target sig
  | newproc => acquire .proctable ++ .claim :: release .proctable
  | fill new pid kstack pgt => [.fill new pid kstack pgt]
  | publish new th => acquire .proctable ++ .publish new th :: release .proctable
  | fail new => acquire .proctable ++ .fail new :: release .proctable
  | exit status => exitproc status
  | ret => [.sigcheck, .eret]
  | trapret => [.eret]

/-- A thread: the scheduler of a CPU, or a process. -/
inductive Thread (C : Type)
  | sched (c : C)
  | proc (p : ProcId)
  deriving DecidableEq

/-- `struct cpu`, and whether the CPU takes interrupts. -/
structure Cpu where
  proc : Option ProcId
  cli_depth : Nat
  intr_enabled : Bool
  irq : Bool

def Cpu.pushcli (x : Cpu) : Cpu :=
  if x.cli_depth = 0 then { x with cli_depth := 1, intr_enabled := x.irq, irq := false }
  else { x with cli_depth := x.cli_depth + 1 }

def Cpu.popcli (x : Cpu) : Cpu :=
  if x.cli_depth = 1 then { x with cli_depth := 0, irq := x.irq || x.intr_enabled }
  else { x with cli_depth := x.cli_depth - 1 }

/-- The kernel. `before` is history: what a thread has found in the mask at its last outermost `acquire`,
nothing for a new process. -/
structure State (C : Type) where
  procs : Procs
  lock : Lock → Option C
  cpu : C → Cpu
  code : Thread C → List Op
  user : ProcId → Bool
  before : Thread C → Option Bool
  panicked : Option String

/-- An interrupt that is none, one of a device, or that of the timer. -/
inductive Irq
  | spurious
  | device
  | timer

/-- The end of `uirq_handler`. -/
def Irq.code : Irq → List Op
  | spurious => [.eret]
  | device => [.sigcheck, .eret]
  | timer => [.tick, .sigcheck, .eret]

/-- The thread on a CPU executes its next statement; where that depends on what is left out, the label says
how it goes. A process in the kernel calls a function, one of the user makes a system call, a CPU takes an
interrupt. -/
inductive Label (C : Type)
  | op (c : C)
  | work (c : C) (w : Work)
  | poll (c : C) (done : Bool)
  | unlink (c : C) (got : Bool)
  | call (c : C) (call : Call)
  | svc (c : C)
  | irq (c : C) (w : Work) (which : Irq)

section Steps
variable {C : Type} [DecidableEq C]

omit [DecidableEq C] in
/-- The thread on a CPU. -/
def State.me (s : State C) (c : C) : Thread C :=
  match (s.cpu c).proc with
  | none => .sched c
  | some p => .proc p

/-- The thread on a CPU goes on with `k`. -/
def State.go (s : State C) (c : C) (k : List Op) : State C := { s with code := Function.update s.code (s.me c) k }

/-- A CPU changes. -/
def State.setCpu (s : State C) (c : C) (x : Cpu) : State C := { s with cpu := Function.update s.cpu c x }

/-- `pushcli`, which notes the mask for an outermost `acquire`. -/
def State.pushcli (s : State C) (c : C) : State C :=
  { s.setCpu c (s.cpu c).pushcli with
    before := if (s.cpu c).cli_depth = 0 then Function.update s.before (s.me c) (some (s.cpu c).irq) else s.before }

/-- Process `p` gives up CPU `c`. -/
def State.leave (s : State C) (c : C) (procs : Procs) : State C :=
  { s.setCpu c { s.cpu c with proc := none } with procs := procs }

/-- `schedule` picks `p`. -/
def State.pick (s : State C) (c : C) (p : ProcId) : State C :=
  { s.setCpu c { s.cpu c with proc := some p } with procs := s.procs.set p fun q => { q with state := .RUNNING } }

/-- The statements of process `p` that touch the table, and what it goes on with. -/
def table (procs : Procs) (p : ProcId) (k : List Op) : Op → Option (Procs × List Op)
  | .chanNull => some (procs.set p fun q => { q with chan := none }, k)
  | .sigcheck => some (if (procs p).sig ≠ 0 then (procs.set p fun q => { q with sig := 0 }, exitproc 1) else (procs, k))
  | .exiting ret =>
    some (if (procs p).pid = 0 then (procs, [.panic "init exit"]) else (procs.set p fun q => { q with ret := ret }, k))
  | .look w => some (match reapable procs p w with
    | some z => (procs.freeproc z, kfree.ops ++ (release .proctable ++ k))
    | none => (procs, sleep (.proc p) .proctable ++ (acquire .proctable ++ .look w :: k)))
  | .wakeupAcquired chan => some (procs.wakeupAcquired (some chan), k)
  | .pget pid sig => some (procs, match procs.find fun q => q.pid = pid with
    | some target => release .proctable ++ (killproc target sig ++ k)
    | none => release .proctable ++ k)
  | .setSig target sig => some (procs.set target fun q => { q with sig := sig }, k)
  | .rouse target =>
    some (if (procs target).state = .SLEEPING then procs.set target fun q => { q with state := .RUNNABLE } else procs, k)
  | .claim => some ((procs.claim.elim procs Prod.snd), k)
  | .fill new pid kstack pgt => if (procs new).state = .CREATED then some ((procs.fill new pid kstack pgt).2, k) else none
  | .fail new => if (procs new).state = .CREATED then some (procs.freeproc new, kfree.ops ++ k) else none
  | .tick => some (procs, if (procs p).sig = 0 then yield ++ k else k)
  | _ => none

/-- `popcli`, with `k` behind it; so are the statements that follow. -/
def State.popcli (s : State C) (c : C) (k : List Op) : State C :=
  if (s.cpu c).cli_depth = 0 then { s with panicked := some "popcli" } else (s.go c k).setCpu c (s.cpu c).popcli

/-- `acquire` behind `pushcli`: it panics when the CPU has the lock, and spins when another one has it. -/
def State.take (s : State C) (c : C) (k : List Op) (l : Lock) : Option (State C) :=
  match s.lock l with
  | none => some { s.go c k with lock := Function.update s.lock l (some c) }
  | some d => if d = c then some { s with panicked := some "already held" } else none

/-- `release`, up to `popcli`. -/
def State.drop (s : State C) (c : C) (k : List Op) (l : Lock) : State C :=
  if s.lock l = some c then { s.go c k with lock := Function.update s.lock l none }
  else { s with panicked := some "invalid release" }

/-- The loop of `schedule`, which picks the next process or starts again. -/
def State.scan (s : State C) (c : C) (k : List Op) (i : Nat) : State C :=
  match next s.procs i with
  | some p => (s.go c (.scan (p + 1) :: k)).pick c p
  | none => s.go c (release .proctable ++ schedule)

/-- The critical section of `fork` or `clone`, called by `p`. -/
def State.publish (s : State C) (c : C) (k : List Op) (p new : ProcId) (th : Bool) : Option (State C) :=
  if (s.procs new).state = .CREATED then
    some { s.go c k with
      procs := s.procs.set new fun q => { q with state := .RUNNABLE, parent := some p, th := th || q.th }
      -- `forkret`
      code := Function.update (s.go c k).code (.proc new) (release .proctable)
      user := Function.update s.user new false
      before := Function.update s.before (.proc new) none }
  else none

/-- A statement of the scheduler, or of an interrupt handler that runs in it. -/
def State.schedOp (s : State C) (c : C) (k : List Op) : Op → Option (State C)
  | .enable => some ((s.go c k).setCpu c { s.cpu c with irq := true })
  | .scan i => some (s.scan c k i)
  | .wakeupAcquired chan => some { s.go c k with procs := s.procs.wakeupAcquired (some chan) }
  | _ => none

/-- A statement of process `p` that touches the table. -/
def State.tableOp (s : State C) (c : C) (p : ProcId) (k : List Op) (op : Op) : Option (State C) :=
  (table s.procs p k op).map fun r => { s.go c r.2 with procs := r.1 }

/-- A statement of process `p`. -/
def State.procOp (s : State C) (c : C) (p : ProcId) (k : List Op) : Op → Option (State C)
  | .yield => some ((s.go c k).leave c (s.procs.set p fun q => { q with state := .RUNNABLE }))
  | .sleep chan => some ((s.go c k).leave c (s.procs.set p fun q => { q with chan := some chan, state := .SLEEPING }))
  | .die => some ((s.go c k).leave c (s.procs.exitproc p))
  | .publish new th => s.publish c k p new th
  | .eret => some { (s.go c []).setCpu c { s.cpu c with irq := true } with user := Function.update s.user p true }
  | op => s.tableOp c p k op

/-- A statement of the scheduler or of the process on CPU `c`. -/
def State.threadOp (s : State C) (c : C) (k : List Op) (op : Op) : Option (State C) :=
  match (s.cpu c).proc with
  | none => s.schedOp c k op
  | some p => s.procOp c p k op

/-- The next statement of the thread on CPU `c`. -/
def State.op (s : State C) (c : C) (k : List Op) : Op → Option (State C)
  | .pushcli => some ((s.go c k).pushcli c)
  | .popcli => some (s.popcli c k)
  | .take l => s.take c k l
  | .drop l => some (s.drop c k l)
  | .iret => some ((s.go c k).setCpu c { s.cpu c with irq := true })
  | .panic msg => some { s with panicked := some msg }
  | op => s.threadOp c k op

/-- An interrupt: `kirq_handler`, or `uirq_handler` for one from the user, who has nothing left to do in the kernel. -/
def State.interrupt (s : State C) (c : C) (w : Work) (which : Irq) : Option (State C) :=
  if (s.cpu c).irq then
    match (s.cpu c).proc.filter s.user, s.code (s.me c) with
    | none, k => some ((s.go c (w.ops ++ .iret :: k)).setCpu c { s.cpu c with irq := false })
    | some p, [] =>
      some { (s.go c (w.ops ++ which.code)).setCpu c { s.cpu c with irq := false } with user := Function.update s.user p false }
    | some _, _ => none
  else none

/-- The step function; a panic stops the machine. -/
def State.step (s : State C) (l : Label C) : Option (State C) :=
  if s.panicked.isSome then none
  else
    match l with
    | .op c =>
      match s.code (s.me c) with
      | op :: k => s.op c k op
      | [] => none
    | .work c w =>
      match s.code (s.me c) with
      | .works :: k => some (s.go c (w.ops ++ k))
      | _ => none
    | .poll c done =>
      match s.code (s.me c) with
      | .poll buf :: k => some (s.go c (if done then k else sleep (.addr buf) .disk ++ .poll buf :: k))
      | _ => none
    | .unlink c got =>
      match s.code (s.me c) with
      | .unlink :: k => some (s.go c (if got then release .kallocator ++ k else printk.ops ++ k))
      | _ => none
    | .call c call =>
      match (s.cpu c).proc, s.code (s.me c) with
      | some p, [] => if s.user p then none else some (s.go c call.code)
      | _, _ => none
    | .svc c =>
      match (s.cpu c).proc with
      | some p => if s.user p then some { s.setCpu c { s.cpu c with irq := false } with user := Function.update s.user p false } else none
      | none => none
    | .irq c w which => s.interrupt c w which

end Steps

/-- The first process is published, every CPU enters `schedule`, and all locks are free. -/
def State.boot (C : Type) : State C where
  procs := Procs.set (fun _ => Proc.zero) initproc fun q => { q with state := .RUNNABLE }
  lock := fun _ => none
  cpu := fun _ => { proc := none, cli_depth := 0, intr_enabled := false, irq := false }
  code
    | .sched _ => schedule
    | .proc _ => release .proctable
  user := fun _ => false
  before := fun _ => none
  panicked := none

/-- The CPUs from boot on. -/
def machine (C : Type) [DecidableEq C] : System (State C) (Label C) where
  init s := s = State.boot C
  step := State.step

end Aarch64Os.Kernel.Cpus
