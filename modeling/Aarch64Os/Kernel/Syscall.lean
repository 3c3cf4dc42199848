import Aarch64Os.Kernel.Vectortable

/-!
# System calls (`usr/systable.S`, `usr/usys.h`, `kernel/syscall.c`)

A program calls a stub, which puts the number of the call in `x6`, and `svc` comes to `usync_handler`
with the registers in a frame. `syscall` takes the arguments of the kernel's function from there.
-/

namespace Aarch64Os.Kernel
set_option autoImplicit false
open Base.Aarch64

/-- Calls of the functions that `syscall.c` declares. An `int` is 32 bits, a pointer or `u64` is a word. -/
inductive Call
  | getpid
  | write (fd : BitVec 32) (s size : Word)
  | read (fd : BitVec 32) (buf size : Word)
  | exit (ret : BitVec 32)
  | fork
  | wait (status : Word)
  | exec (path argv : Word)
  | open (path : Word) (flags : BitVec 32)
  | close (fd : BitVec 32)
  | fstat (fd : BitVec 32) (st : Word)
  | uname (u : Word)
  | chdir (path : Word)
  | mkdir (path : Word)
  | mknod (path : Word) (mode dev : BitVec 32)
  | dup (fd : BitVec 32)
  | clone (fn stack : Word)
  | waitpid (pid : BitVec 32) (status : Word)
  | sbrk (incr : BitVec 32)
  | kill (pid sig : BitVec 32)
  deriving DecidableEq

/-- `sysarg`, which panics for other arguments. -/
def sysarg (tf : Trapframe) : Nat → Option Word
  | 0 => some (tf.x 0)
  | 1 => some (tf.x 1)
  | 2 => some (tf.x 2)
  | 3 => some (tf.x 3)
  | _ => none

/-- `sysarg` as an `int`. -/
def sysargInt (tf : Trapframe) (n : Nat) : Option (BitVec 32) := (sysarg tf n).map fun w => w.setWidth 32

def sysGetpid (_ : Trapframe) : Option Call := some .getpid

def sysWrite (tf : Trapframe) : Option Call := do
  let fd ← sysargInt tf 0
  let buf ← sysarg tf 1
  let size ← sysarg tf 2
  return .write fd buf size

def sysRead (tf : Trapframe) : Option Call := do
  let fd ← sysargInt tf 0
  let buf ← sysarg tf 1
  let size ← sysarg tf 2
  return .read fd buf size

def sysExit (tf : Trapframe) : Option Call := do
  let ret ← sysargInt tf 0
  return .exit ret

def sysFork (_ : Trapframe) : Option Call := some .fork

def sysClone (tf : Trapframe) : Option Call := do
  let fn ← sysarg tf 0
  let stack ← sysarg tf 1
  return .clone fn stack

def sysWait (tf : Trapframe) : Option Call := do
  let addr ← sysarg tf 0
  return .wait addr

def sysExec (tf : Trapframe) : Option Call := do
  let path ← sysarg tf 0
  let argv ← sysarg tf 1
  return .exec path argv

def sysOpen (tf : Trapframe) : Option Call := do
  let path ← sysarg tf 0
  let flags ← sysargInt tf 1
  return .open path flags

def sysClose (tf : Trapframe) : Option Call := do
  let fd ← sysargInt tf 0
  return .close fd

def sysFstat (tf : Trapframe) : Option Call := do
  let fd ← sysargInt tf 0
  let addr ← sysarg tf 1
  return .fstat fd addr

def sysUname (tf : Trapframe) : Option Call := do
  let addr ← sysarg tf 0
  return .uname addr

def sysChdir (tf : Trapframe) : Option Call := do
  let path ← sysarg tf 0
  return .chdir path

def sysMkdir (tf : Trapframe) : Option Call := do
  let path ← sysarg tf 0
  return .mkdir path

def sysMknod (tf : Trapframe) : Option Call := do
  let path ← sysarg tf 0
  let mode ← sysargInt tf 1
  let dev ← sysargInt tf 2
  return .mknod path mode dev

def sysDup (tf : Trapframe) : Option Call := do
  let fd ← sysargInt tf 0
  return .dup fd

def sysWaitpid (tf : Trapframe) : Option Call := do
  let pid ← sysargInt tf 0
  let status ← sysarg tf 1
  return .waitpid pid status

def sysSbrk (tf : Trapframe) : Option Call := do
  let incr ← sysargInt tf 0
  return .sbrk incr

def sysKill (tf : Trapframe) : Option Call := do
  let pid ← sysargInt tf 0
  return .kill pid 1

/-- `syscall_table`. -/
def syscallTable : List (Trapframe → Option Call) :=
  [sysGetpid, sysWrite, sysRead, sysExit, sysFork, sysWait, sysExec, sysOpen, sysClose, sysFstat, sysUname, sysChdir, sysMkdir, sysMknod,
    sysDup, sysClone, sysWaitpid, sysSbrk, sysKill]

def NSYSCALL : Nat := 19

/-- The function that `syscall` calls, or none for an unknown number. -/
def sysnum (tf : Trapframe) : Option (Trapframe → Option Call) :=
  if (tf.x 6).toNat < NSYSCALL then syscallTable[(tf.x 6).toNat]? else none

/-- What a function returns: an `int`, or the pointer of `sbrk`. -/
inductive Result
  | int (r : BitVec 32)
  | ptr (p : Word)

/-- A result as an `u64`. -/
def Result.word : Result → Word
  | int r => r.signExtend 64
  | ptr p => p

/-- `syscall`, with the functions of the kernel as `run`. -/
def syscall (run : Call → Result) (tf : Trapframe) : Option Trapframe :=
  match sysnum tf with
  | some f => (f tf).map fun call => { tf with x := Function.update tf.x 0 (run call).word }
  | none => some { tf with x := Function.update tf.x 0 (-1) }

/-- The branches of `usync_handler`, by the class of the exception. -/
inductive Usync
  | syscall
  | none
  | sp_alignment
  | data_abort
  | inst_abort
  | unknown
  deriving DecidableEq

/-- `usync_handler`. -/
def usyncHandler (esr : Word) : Usync :=
  let ec := (esr >>> 26) &&& 0x3f
  if ec = 0b010101 then .syscall
  else if ec = 0b000111 then .none
  else if ec = 0b100110 then .sp_alignment
  else if ec = 0b100100 then .data_abort
  else if ec = 0b100000 then .inst_abort
  else .unknown

/-- An argument of a call in C. -/
inductive Arg
  | int (v : BitVec 32)
  | word (w : Word)

/-- Where a call in C puts an argument. What is above an `int` may be anything. -/
def Arg.Passed (a : Arg) (w : Word) : Prop :=
  match a with
  | int v => w.setWidth 32 = v
  | word v => w = v

/-- Calls of the functions that `usys.h` declares. -/
inductive Usys
  | getpid
  | write (fd : BitVec 32) (s size : Word)
  | read (fd : BitVec 32) (buf size : Word)
  | exit (ret : BitVec 32)
  | fork
  | wait (status : Word)
  | exec (path argv : Word)
  | open (path : Word) (flags : BitVec 32)
  | close (fd : BitVec 32)
  | fstat (fd : BitVec 32) (st : Word)
  | uname (u : Word)
  | chdir (path : Word)
  | mkdir (path : Word)
  | mknod (path : Word) (mode dev : BitVec 32)
  | dup (fd : BitVec 32)
  | clone (fn stack : Word)
  | waitpid (pid : BitVec 32) (status : Word)
  | sbrk (incr : BitVec 32)
  | kill (pid : BitVec 32)

namespace Usys

/-- The number that its stub has, of `syscall.h`. -/
def id : Usys → Nat
  | getpid => 0
  | write .. => 1
  | read .. => 2
  | exit .. => 3
  | fork => 4
  | wait .. => 5
  | exec .. => 6
  | .open .. => 7
  | close .. => 8
  | fstat .. => 9
  | uname .. => 10
  | chdir .. => 11
  | mkdir .. => 12
  | mknod .. => 13
  | dup .. => 14
  | clone .. => 15
  | waitpid .. => 16
  | sbrk .. => 17
  | kill .. => 18

def args : Usys → List Arg
  | getpid => []
  | write fd s size => [.int fd, .word s, .word size]
  | read fd buf size => [.int fd, .word buf, .word size]
  | exit ret => [.int ret]
  | fork => []
  | wait status => [.word status]
  | exec path argv => [.word path, .word argv]
  | .open path flags => [.word path, .int flags]
  | close fd => [.int fd]
  | fstat fd st => [.int fd, .word st]
  | uname u => [.word u]
  | chdir path => [.word path]
  | mkdir path => [.word path]
  | mknod path mode dev => [.word path, .int mode, .int dev]
  | dup fd => [.int fd]
  | clone fn stack => [.word fn, .word stack]
  | waitpid pid status => [.int pid, .word status]
  | sbrk incr => [.int incr]
  | kill pid => [.int pid]

/-- The call of the kernel that it is for. -/
def call : Usys → Call
  | getpid => .getpid
  | write fd s size => .write fd s size
  | read fd buf size => .read fd buf size
  | exit ret => .exit ret
  | fork => .fork
  | wait status => .wait status
  | exec path argv => .exec path argv
  | .open path flags => .open path flags
  | close fd => .close fd
  | fstat fd st => .fstat fd st
  | uname u => .uname u
  | chdir path => .chdir path
  | mkdir path => .mkdir path
  | mknod path mode dev => .mknod path mode dev
  | dup fd => .dup fd
  | clone fn stack => .clone fn stack
  | waitpid pid status => .waitpid pid status
  | sbrk incr => .sbrk incr
  | kill pid => .kill pid 1

/-- The stub, of the macro `SYSCALL`. -/
def stub (u : Usys) : List Instr := [.op (.movImm (.x 6) (BitVec.ofNat 64 u.id)), .svc 0, .ret]

/-- Registers hold the arguments. -/
def Passed (u : Usys) (x : Fin 31 → Word) : Prop := ∀ k a, u.args[k]? = some a → ∀ h : k < 31, a.Passed (x ⟨k, h⟩)

end Usys

theorem Usys.id_lt (u : Usys) : u.id < NSYSCALL := by
  cases u <;> simp [Usys.id, NSYSCALL]

theorem Usys.args_length (u : Usys) : u.args.length ≤ 3 := by
  cases u <;> simp [Usys.args]

/-- The registers that a stub's caller has set lead to the call that it is for. -/
theorem Usys.dispatched (u : Usys) {tf : Trapframe} (six : tf.x 6 = BitVec.ofNat 64 u.id) (passed : u.Passed tf.x) :
    ∃ f, sysnum tf = some f ∧ f tf = some u.call := by
  have small := u.id_lt
  have number : (tf.x 6).toNat = u.id := by
    rw [six, BitVec.toNat_ofNat]
    exact Nat.mod_eq_of_lt (lt_trans small (by decide))
  have entry : sysnum tf = syscallTable[u.id]? := by
    rw [sysnum, number, if_pos small]
  rw [entry]
  cases u with
  | getpid | fork => exact ⟨_, rfl, rfl⟩
  | exit | wait | close | uname | chdir | mkdir | dup | sbrk | kill =>
    have first := passed 0 _ rfl (by decide)
    change _ = _ at first
    subst first
    exact ⟨_, rfl, rfl⟩
  | exec | «open» | fstat | clone | waitpid =>
    have first := passed 0 _ rfl (by decide)
    have second := passed 1 _ rfl (by decide)
    change _ = _ at first second
    subst first second
    exact ⟨_, rfl, rfl⟩
  | write | read | mknod =>
    have first := passed 0 _ rfl (by decide)
    have second := passed 1 _ rfl (by decide)
    have third := passed 2 _ rfl (by decide)
    change _ = _ at first second third
    subst first second third
    exact ⟨_, rfl, rfl⟩

/-- `syscall` answers in `x0` and leaves all else. -/
theorem Usys.answered (u : Usys) {tf : Trapframe} (six : tf.x 6 = BitVec.ofNat 64 u.id) (passed : u.Passed tf.x) (run : Call → Result) :
    syscall run tf = some { tf with x := Function.update tf.x 0 (run u.call).word } := by
  obtain ⟨f, entry, call⟩ := u.dispatched six passed
  rw [syscall, entry]
  show (f tf).map _ = _
  rw [call]
  rfl

/-- Arguments are in other registers than the number. -/
theorem Usys.Passed.numbered {u : Usys} {x : Fin 31 → Word} (h : u.Passed x) (n : Word) : u.Passed (Function.update x 6 n) := by
  intro k a there lt
  have few := u.args_length
  obtain ⟨lt', -⟩ := List.getElem?_eq_some_iff.1 there
  have ne : (⟨k, lt⟩ : Fin 31) ≠ 6 := by
    intro eq
    have six : k = 6 := congrArg Fin.val eq
    omega
  rw [Function.update_of_ne ne]
  exact h k a there lt

/-- A program that is about to write, with something above its `int`. -/
def writing : State where
  x := fun n => if n = 0 then 0xffff00000001 else if n = 1 then 0x2000 else if n = 2 then 5 else 0
  sp_el1 := 0x20000
  sys := fun r => if r = .vbar_el1 then 0x1000 else 0
  pstate := 0
  pc := 0x4000
  mem := 0

/-- The files of assembly, with its stub. -/
def writeText : List (Nat × List Instr) :=
  vectorPieces 0x1000 ⟨0x8000, 0x8004, 0x8008, 0x800c, 0x8010, 0x8014⟩ ++ [(0x4000, (Usys.write 1 0x2000 5).stub)]

theorem writeText_apart : (writeText.Pairwise fun p q => p.1 + 4 * p.2.length ≤ q.1) ∧ ∀ p ∈ writeText, p.1 + 4 * p.2.length ≤ 2 ^ 64 := by
  have sizes : writeText.map (fun p => (p.1, p.2.length)) =
      [(0x1000, 2), (0x1080, 2), (0x1100, 2), (0x1180, 2), (0x1200, 1), (0x1280, 1), (0x1300, 2), (0x1380, 2), (0x1400, 1), (0x1480, 1),
        (0x1500, 2), (0x1580, 2), (0x1600, 2), (0x1680, 2), (0x1700, 2), (0x1780, 2), (0x1788, 225), (0x4000, 3)] := rfl
  constructor
  · have pairs : (writeText.map fun p => (p.1, p.2.length)).Pairwise fun p q => p.1 + 4 * p.2 ≤ q.1 := by
      rw [sizes]
      decide
    exact List.pairwise_map.1 pairs
  · have ends : ∀ q ∈ writeText.map fun p => (p.1, p.2.length), q.1 + 4 * q.2 ≤ 0x10000 := by
      rw [sizes]
      decide
    intro p mem
    have le := ends _ (List.mem_map_of_mem mem)
    exact le_trans le (by norm_num)

theorem writing_passed : (Usys.write 1 0x2000 5).Passed writing.x := by
  intro k a there lt
  have few : k < 3 := (List.getElem?_eq_some_iff.1 there).1
  obtain rfl | rfl | rfl : k = 0 ∨ k = 1 ∨ k = 2 := by omega
  · obtain rfl := Option.some.inj there
    show (0xffff00000001#64).setWidth 32 = 1#32
    decide
  · obtain rfl := Option.some.inj there
    rfl
  · obtain rfl := Option.some.inj there
    rfl

end Aarch64Os.Kernel
