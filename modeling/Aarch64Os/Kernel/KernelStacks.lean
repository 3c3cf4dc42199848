import Aarch64Os.Base.Transition
import Aarch64Os.Kernel.Cswitch

/-!
# Threads on their kernel stacks (`kernel/vectortable.S`, `kernel/cswitch.S`, `kernel/proc.c`)

Any number of cores run the assembly of the kernel, instruction by instruction, and between that code in C
and code of users, of which only is known what it leaves alone. A thread is a process or the scheduler of
a core. What it was interrupted at is in frames on its stack, and where it called `cswitch` in its context.
-/

namespace Aarch64Os.Kernel.KernelStacks
set_option autoImplicit false
open Base Base.Aarch64

/-- What stays: the code, and where the contexts of the threads are. -/
structure Image (T : Type) where
  code : Code
  vectortable : Word
  handlers : Handlers
  cswitch : Word
  forkret : Word
  schedule_tail : Word
  context : T → Word

/-- The files are in memory, and each context is apart from the others. -/
structure Image.Linked {T : Type} (K : Image T) : Prop where
  vectortable : Vectortable K.code K.vectortable K.handlers
  cswitch : K.code.At K.cswitch Kernel.cswitch
  forkret : K.code.At K.forkret (Kernel.forkret K.schedule_tail (trapret K.vectortable))
  aligned : ∀ t, (K.context t).toNat % 8 = 0
  apart : ∀ t u, t ≠ u → ∀ i < 25, ∀ j < 25, slot (K.context t) i ≠ slot (K.context u) j

/-- A word of a stack, counted down from its end. -/
def word (top : Word) (depth : Nat) : Word := top - BitVec.ofNat 64 (8 * depth)

/-- A frame on a stack, of which exception it is, and what it holds. -/
structure Frame where
  kind : Trap
  depth : Nat
  tf : Trapframe

/-- A thread: the end of its stack, its frames with the latest first, and its context while it does not run. -/
structure Thread where
  top : Word
  frames : List Frame
  context : Option Context

/-- Code in C writes to `p->tf`, which is the frame from EL0. -/
def Frame.reread (m : Mem) (top : Word) (f : Frame) : Frame := if f.kind.user then { f with tf := trapframeAt m (word top f.depth) } else f

namespace Thread

/-- `p->tf`, of which `newproc` has made `p->kstack + PAGESIZE - sizeof(struct trapframe)`. -/
def tf (th : Thread) : Word := word th.top 34

/-- Words from the end of the stack to the latest frame. -/
def depth (th : Thread) : Nat := ((th.frames.head?).map Frame.depth).getD 0

def push (kind : Trap) (sp : Word) (tf : Trapframe) (th : Thread) : Thread :=
  { th with frames := ⟨kind, (th.top - sp).toNat / 8, tf⟩ :: th.frames }

def pop (th : Thread) : Thread := { th with frames := th.frames.tail }

def reread (m : Mem) (th : Thread) : Thread := { th with frames := th.frames.map (Frame.reread m th.top) }

/-- What `handle_data_abort` does to its frame. -/
def fault (p handler : Word) (th : Thread) : Thread :=
  { th with frames := th.frames.modifyHead fun f => { f with tf := { f.tf with x := Function.update f.tf.x 0 p, elr := handler } } }

end Thread

/-- How a process comes to be. -/
inductive Birth
  | userproc_init
  | fork
  | clone (fn stack : Word)

/-- Its first frame, from that of the process that makes it. -/
def Birth.frame (tf : Trapframe) : Birth → Trapframe
  | userproc_init => ⟨fun _ => 0, 0x1000, 0, 0x7ffffff000⟩
  | fork => { tf with x := Function.update tf.x 0 0 }
  | clone fn stack => { tf with elr := fn, sp := stack + 4096 }

/-- The registers of its first context. -/
def birthRegs (p forkret : Word) : Fin 31 → Word := Function.update (Function.update (fun _ => 0) 0 p) 30 forkret

structure Sys (C T : Type) where
  regs : C → Regs
  mem : Mem
  current : C → T
  threads : T → Option Thread

inductive Act (C T : Type)
  /-- code in C, or at EL0 -/
  | work (c : C) (r : Regs) (m : Mem)
  | irq (c : C)
  /-- an exception that is no interrupt -/
  | sync (c : C) (esr elr : Word)
  /-- `handle_data_abort` in the kernel, for a `p` with a `fault_handler` -/
  | data_abort (c : C) (tf p fault_handler : Word)
  /-- `restorereg` and `eret` -/
  | ret (c : C)
  | cswitch (c : C) (t : T)
  /-- an instruction of `forkret` -/
  | forkret (c : C)
  /-- `newproc` in slot `t`, at the address `p`, and what its caller does to the frame -/
  | newproc (c : C) (t : T) (kstack p : Word) (b : Birth)
  | freeproc (c : C) (t : T)

section System
variable {C T : Type} [DecidableEq C] [DecidableEq T]

def Sys.core (s : Sys C T) (c : C) : State := { s.regs c with mem := s.mem }

def Sys.put (s : Sys C T) (c : C) (t : State) : Sys C T := { s with regs := Function.update s.regs c t.toRegs, mem := t.mem }

def Sys.modify (s : Sys C T) (t : T) (f : Thread → Thread) : Sys C T :=
  { s with threads := Function.update s.threads t ((s.threads t).map f) }

/-- Which exception comes. -/
def Sys.trap (s : Sys C T) (c : C) (irq : Bool) : Trap := ⟨decide ((s.regs c).mode = EL0t), irq⟩

/-- The code of an exception, up to its handler. -/
def enter (K : Image T) (s : Sys C T) (c : C) (k : Trap) (u : State) (elr : Word) : Option (Sys C T) :=
  (run K.code 24 (k.taken u elr)).map fun t => (s.put c t).modify (s.current c) (Thread.push k t.sp_el1 (k.frame u elr))

def step (K : Image T) (s : Sys C T) : Act C T → Option (Sys C T)
  | .work c r m => some (({ s with regs := Function.update s.regs c r, mem := m }).modify (s.current c) (Thread.reread m))
  | .irq c => enter K s c (s.trap c true) (s.core c) (s.regs c).pc
  | .sync c esr elr => enter K s c (s.trap c false) ((s.core c).setSys .esr_el1 esr) elr
  | .data_abort c tf p handler =>
    some (({ s with mem := Function.update (Function.update s.mem (slot tf 31) handler) tf p }).modify (s.current c) (Thread.fault p handler))
  | .ret c => (run K.code 22 (s.core c)).map fun t => (s.put c t).modify (s.current c) Thread.pop
  | .cswitch c u => (run K.code 31 (s.core c)).map fun t =>
    { ((s.put c t).modify (s.current c) fun th => { th with context := some (contextOf (s.regs c)) }).modify u fun th => { th with context := none } with
      current := Function.update s.current c u }
  | .forkret c => (run K.code 1 (s.core c)).map (s.put c)
  | .newproc c u kstack p b =>
    (s.threads (s.current c)).map fun th =>
      let frame := b.frame (trapframeAt s.mem th.tf)
      let top := kstack + 4096
      let regs := birthRegs p K.forkret
      { s with
        mem := (s.mem.put (K.context u) (contextWords (word top 34) regs)).put (word top 34) frame.words
        threads := Function.update s.threads u (some ⟨top, [⟨⟨true, true⟩, 34, frame⟩], some ⟨word top 34, fun n => regs n⟩⟩) }
  | .freeproc _ u => some { s with threads := Function.update s.threads u none }

def system (K : Image T) (boot : Sys C T) : System (Sys C T) (Act C T) where
  init s := s = boot
  step := step K

/-- A stack pointer with the frames above it, within the page of the stack. -/
structure Thread.Room (th : Thread) (sp : Word) (depth : Nat) : Prop where
  sp : sp = word th.top depth
  even : depth % 2 = 0
  above : th.depth ≤ depth
  page : depth ≤ 512

/-- Code in C, and users, write neither to frames nor to contexts, but for the frame from EL0 of the process itself. -/
structure Sys.LeavesAlone (K : Image T) (s : Sys C T) (c : C) (m : Mem) : Prop where
  frames : ∀ t th, s.threads t = some th → ∀ f ∈ th.frames, ¬(t = s.current c ∧ f.kind.user) →
    trapframeAt m (word th.top f.depth) = trapframeAt s.mem (word th.top f.depth)
  contexts : ∀ t th, s.threads t = some th → th.context ≠ none → contextAt m (K.context t) = contextAt s.mem (K.context t)

/-- What is promised of code in C and of users: the mode is as it was, and in the kernel the stack pointer is below all
frames. `p->tf` stays a frame of EL0. -/
structure Sys.Works (K : Image T) (s : Sys C T) (c : C) (r : Regs) (m : Mem) : Prop where
  leaves : s.LeavesAlone K c m
  mode : r.mode = (s.regs c).mode
  vbar : r.sys .vbar_el1 = (s.regs c).sys .vbar_el1
  user : r.mode = EL0t → r.sp_el1 = (s.regs c).sp_el1
  kernel : r.mode = EL1h → ∀ th, s.threads (s.current c) = some th → ∃ d, th.Room r.sp_el1 d
  tf : ∀ th, s.threads (s.current c) = some th → ∀ f ∈ th.frames, f.kind.user → (trapframeAt m (word th.top f.depth)).spsr.extractLsb' 0 4 = EL0t

/-- A page for a stack that nothing else is in. -/
structure Sys.Free (K : Image T) (s : Sys C T) (kstack : Word) : Prop where
  aligned : kstack.toNat % 4096 = 0
  pages : ∀ t th, s.threads t = some th → ∀ i j, 1 ≤ i → i ≤ 512 → 1 ≤ j → j ≤ 512 → word th.top i ≠ word (kstack + 4096) j
  contexts : ∀ t, ∀ i < 25, ∀ j, 1 ≤ j → j ≤ 512 → slot (K.context t) i ≠ word (kstack + 4096) j

/-- There is room for one more frame. -/
def Sys.Fits (s : Sys C T) (c : C) : Prop :=
  ∀ th, s.threads (s.current c) = some th → (th.top - (s.regs c).sp_el1).toNat / 8 + 34 ≤ 512

/-- When something can happen. What is restored, and what is switched, is not interrupted. -/
def Allowed (K : Image T) (s : Sys C T) : Act C T → Prop
  | .work c r m => s.Works K c r m
  | .irq c => (s.regs c).masked = false ∧ s.Fits c
  | .sync c _ _ => s.Fits c
  | .data_abort c tf _ _ => ∃ th f fs, s.threads (s.current c) = some th ∧ th.frames = f :: fs ∧ f.kind = ⟨false, false⟩ ∧ tf = word th.top f.depth
  | .ret c => (s.regs c).mode = EL1h ∧ (s.regs c).masked = true ∧ (∃ k : Trap, (s.regs c).pc = k.back K.vectortable) ∧
    ∃ th f fs, s.threads (s.current c) = some th ∧ th.frames = f :: fs ∧ (s.regs c).sp_el1 = word th.top f.depth
  | .cswitch c u => (s.regs c).mode = EL1h ∧ (s.regs c).masked = true ∧ (s.regs c).pc = K.cswitch ∧
    (s.regs c).x 0 = K.context (s.current c) ∧ (s.regs c).x 1 = K.context u ∧ ∃ th, s.threads u = some th ∧ th.context ≠ none
  | .forkret c => (s.regs c).mode = EL1h ∧ ((s.regs c).pc = K.forkret ∨ (s.regs c).pc = K.forkret + 4)
  | .newproc c u kstack _ b => s.threads u = none ∧ s.Free K kstack ∧
    (b ≠ .userproc_init → ∃ th f, s.threads (s.current c) = some th ∧ f ∈ th.frames ∧ f.kind.user)
  | .freeproc _ u => ∃ th, s.threads u = some th ∧ th.context ≠ none

/-- What the steps of assembly do to the threads. -/
def Gives (K : Image T) (s : Sys C T) (a : Act C T) (s' : Sys C T) : Prop :=
  match a with
  | .irq c => ∃ th, s.threads (s.current c) = some th ∧ (s.trap c true).Entered K.vectortable K.handlers (s.core c) (s.regs c).pc (s'.core c) ∧
    ((s.regs c).mode = EL0t → (s'.regs c).x 0 = th.tf)
  | .sync c esr elr => ∃ th, s.threads (s.current c) = some th ∧
    (s.trap c false).Entered K.vectortable K.handlers ((s.core c).setSys .esr_el1 esr) elr (s'.core c) ∧
    ((s.regs c).mode = EL0t → (s'.regs c).x 0 = th.tf)
  | .ret c => ∃ th f fs, s.threads (s.current c) = some th ∧ th.frames = f :: fs ∧ (s'.regs c).x = f.tf.x ∧ (s'.regs c).pc = f.tf.elr ∧
    (s'.regs c).pstate = f.tf.spsr ∧ (s'.regs c).sp = (if f.kind.user then f.tf.sp else word th.top (f.depth - 34)) ∧ s'.mem = s.mem
  | .cswitch c u => ∃ th r, s.threads u = some th ∧ th.context = some r ∧ contextOf (s'.regs c) = r ∧ (s'.regs c).pc = r.x lr ∧
    (s'.regs c).pstate = (s.regs c).pstate
  | .forkret c => ((s.regs c).pc = K.forkret → (s'.regs c).pc = K.schedule_tail ∧ (s'.regs c).x = Function.update (s.regs c).x 30 (K.forkret + 4)) ∧
    ((s.regs c).pc = K.forkret + 4 → (s'.regs c).pc = trapret K.vectortable ∧ (s'.regs c).x = (s.regs c).x) ∧ (s'.regs c).sp_el1 = (s.regs c).sp_el1
  | .newproc c u _ p b => b ≠ .userproc_init → ∃ th f new, s.threads (s.current c) = some th ∧ f ∈ th.frames ∧ f.kind.user ∧
    s'.threads u = some new ∧ new.frames = [⟨⟨true, true⟩, 34, b.frame f.tf⟩] ∧ new.context = some ⟨new.tf, fun n => birthRegs p K.forkret n⟩
  | _ => True

/-- Frames lie one behind the other, and the one from EL0 is the first, at the end of the stack. -/
def Stacked : List Frame → Prop
  | [] => True
  | f :: fs => ((fs.head?.map Frame.depth).getD 0 + 34 ≤ f.depth ∧ f.depth % 2 = 0 ∧ f.depth ≤ 512 ∧
      f.tf.spsr.extractLsb' 0 4 = f.kind.mode ∧ (f.kind.user = true → fs = [] ∧ f.depth = 34)) ∧ Stacked fs

/-- A thread on a core: in the kernel below its frames, or at EL0 without any. -/
structure OnCore (K : Image T) (r : Regs) (th : Thread) : Prop where
  running : th.context = none
  vbar : r.sys .vbar_el1 = K.vectortable
  stack : ∃ d, th.Room r.sp_el1 d ∧ (r.mode = EL1h ∨ r.mode = EL0t ∧ th.frames = [] ∧ d = 0)

/-- A thread is in memory: its frames, and its context while it does not run. -/
structure Held (K : Image T) (m : Mem) (t : T) (th : Thread) : Prop where
  stacked : Stacked th.frames
  frames : ∀ f ∈ th.frames, trapframeAt m (word th.top f.depth) = f.tf
  context : ∀ r, th.context = some r → contextAt m (K.context t) = r ∧ ∃ d, th.Room r.sp d

/-- No two stacks share a word, and none has one of a context. -/
structure Placed (K : Image T) (s : Sys C T) : Prop where
  aligned : ∀ t th, s.threads t = some th → th.top.toNat % 16 = 0
  pages : ∀ t u th th', t ≠ u → s.threads t = some th → s.threads u = some th' →
    ∀ i j, 1 ≤ i → i ≤ 512 → 1 ≤ j → j ≤ 512 → word th.top i ≠ word th'.top j
  apart : ∀ t u th, s.threads u = some th → ∀ i < 25, ∀ j, 1 ≤ j → j ≤ 512 → slot (K.context t) i ≠ word th.top j

/-- The threads are as memory and registers say. -/
structure Inv (K : Image T) (s : Sys C T) : Prop where
  core : ∀ c, ∃ th, s.threads (s.current c) = some th ∧ OnCore K (s.regs c) th
  alone : Function.Injective s.current
  held : ∀ t th, s.threads t = some th → Held K s.mem t th
  placed : Placed K s

/-- The cores in their schedulers, before there is a process. -/
structure Boots (K : Image T) (s : Sys C T) : Prop where
  core : ∀ c, (s.regs c).mode = EL1h ∧ (s.regs c).sys .vbar_el1 = K.vectortable ∧
    ∃ th, s.threads (s.current c) = some th ∧ (s.regs c).sp_el1 = th.top
  threads : ∀ t th, s.threads t = some th → th.frames = [] ∧ th.context = none
  alone : Function.Injective s.current
  placed : Placed K s

section Words
variable {top : Word} {d i j : Nat}

theorem slot_word (le : j ≤ d) : slot (word top d) j = word top (d - j) := by
  have split : BitVec.ofNat 64 (8 * d) = BitVec.ofNat 64 (8 * (d - j)) + BitVec.ofNat 64 (8 * j) := by
    rw [← BitVec.ofNat_add]
    congr 1
    omega
  unfold slot word
  rw [split]
  ring

theorem word_inj (same : word top i = word top j) (lt : i ≤ 512) (lt' : j ≤ 512) : i = j := by
  have eq : BitVec.ofNat 64 (8 * i) = BitVec.ofNat 64 (8 * j) := sub_right_inj.1 same
  have value := congrArg BitVec.toNat eq
  rw [BitVec.toNat_ofNat, BitVec.toNat_ofNat] at value
  omega

theorem word_sub : word top d - 272 = word top (d + 34) := by
  have split : BitVec.ofNat 64 (8 * (d + 34)) = BitVec.ofNat 64 (8 * d) + 272 := by
    rw [Nat.mul_add, BitVec.ofNat_add]
    rfl
  unfold word
  rw [split]
  ring

theorem word_zero : word top 0 = top := by
  simp [word]

/-- How deep a word is. -/
theorem depth_word (le : d ≤ 512) : (top - word top d).toNat / 8 = d := by
  unfold word
  rw [sub_sub_cancel, BitVec.toNat_ofNat]
  omega

theorem word_aligned (aligned : top.toNat % 16 = 0) (even : d % 2 = 0) : (word top d).toNat % 16 = 0 := by
  unfold word
  rw [BitVec.toNat_sub, BitVec.toNat_ofNat]
  omega

end Words

section Stacks
variable {f : Frame} {fs : List Frame}

/-- A frame is on the stack, not below the latest one. -/
theorem Stacked.mem (h : Stacked fs) (mem : f ∈ fs) : 34 ≤ f.depth ∧ f.depth ≤ (fs.head?.map Frame.depth).getD 0 ∧ f.depth ≤ 512 := by
  induction fs with
  | nil => exact absurd mem List.not_mem_nil
  | cons g fs ih =>
    obtain ⟨⟨below, -, page, -⟩, rest⟩ := h
    show _ ∧ f.depth ≤ g.depth ∧ _
    cases List.mem_cons.1 mem with
    | inl eq =>
      subst eq
      exact ⟨by omega, le_rfl, page⟩
    | inr mem =>
      obtain ⟨small, le, page'⟩ := ih rest mem
      exact ⟨small, by omega, page'⟩

/-- A frame goes back to the mode that its exception came from. -/
theorem Stacked.mode (h : Stacked fs) (mem : f ∈ fs) : f.tf.spsr.extractLsb' 0 4 = f.kind.mode := by
  induction fs with
  | nil => exact absurd mem List.not_mem_nil
  | cons g fs ih =>
    obtain ⟨⟨-, -, -, mode, -⟩, rest⟩ := h
    cases List.mem_cons.1 mem with
    | inl eq =>
      subst eq
      exact mode
    | inr mem => exact ih rest mem

/-- The frame from EL0 is `p->tf`. -/
theorem Stacked.user (h : Stacked fs) (mem : f ∈ fs) (user : f.kind.user = true) : f.depth = 34 := by
  induction fs with
  | nil => exact absurd mem List.not_mem_nil
  | cons g fs ih =>
    obtain ⟨⟨-, -, -, -, first⟩, rest⟩ := h
    cases List.mem_cons.1 mem with
    | inl eq =>
      subst eq
      exact (first user).2
    | inr mem => exact ih rest mem

end Stacks

/-- The two words that `handle_data_abort` writes. -/
theorem trapframeAt_fault (m : Mem) (a p handler : Word) :
    trapframeAt (Function.update (Function.update m (slot a 31) handler) a p) a =
      { trapframeAt m a with x := Function.update (trapframeAt m a).x 0 p, elr := handler } := by
  let m' : Mem := Function.update (Function.update m (slot a 31) handler) a p
  have apart : ∀ k < 34, ∀ j < 34, k ≠ j → slot a k ≠ slot a j := by
    intro k lt j lt' ne eq
    exact ne (slot_inj eq (by omega) (by omega))
  have other : ∀ k < 34, k ≠ 0 → k ≠ 31 → m' (slot a k) = m (slot a k) := by
    intro k lt zero thirty_one
    have ne := apart k lt 0 (by decide) zero
    rw [slot_zero] at ne
    show Function.update (Function.update m (slot a 31) handler) a p (slot a k) = _
    rw [Function.update_of_ne ne, Function.update_of_ne (apart k lt 31 (by decide) thirty_one)]
  have first : m' (slot a 0) = p := by
    rw [slot_zero]
    exact Function.update_self ..
  have elr : m' (slot a 31) = handler := by
    have ne := apart 31 (by decide) 0 (by decide) (by decide)
    rw [slot_zero] at ne
    show Function.update (Function.update m (slot a 31) handler) a p (slot a 31) = _
    rw [Function.update_of_ne ne, Function.update_self]
  have regs : (fun n : Fin 31 => m' (slot a n)) = Function.update (fun n : Fin 31 => m (slot a n)) 0 p := by
    funext n
    by_cases zero : n = 0
    · subst zero
      rw [Function.update_self]
      exact first
    · rw [Function.update_of_ne zero]
      have ne : (n : Nat) ≠ 0 := fun eq => zero (Fin.ext eq)
      exact other n (by omega) ne (by omega)
  show (⟨fun n => m' (slot a n), m' (slot a 31), m' (slot a 32), m' (slot a 33)⟩ : Trapframe) =
    ⟨Function.update (fun n : Fin 31 => m (slot a n)) 0 p, handler, m (slot a 32), m (slot a 33)⟩
  rw [elr, other 32 (by decide) (by decide) (by decide), other 33 (by decide) (by decide) (by decide), regs]

end System

end Aarch64Os.Kernel.KernelStacks
