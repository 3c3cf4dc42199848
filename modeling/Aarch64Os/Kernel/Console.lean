import Aarch64Os.Base.Transition
import Aarch64Os.Kernel.Mm.Userspace
import Aarch64Os.Kernel.Proc

/-!
# The console (`kernel/console.c`)

A reader gives the console its buffer and sleeps on it, and the interrupt handler stores what is
typed until the line ends. The steps of a system of readers are the sections that `cs->lk` and
`proctable.lk` make of `csread`, `sleep`, `consoleintr` and `wakeup`. What is echoed is left out.
-/

namespace Aarch64Os.Kernel
set_option autoImplicit false
open Base

/-- `P2V`. -/
def P2V (pa : Nat) : Nat := (pa + VA_START) % U64

/-- `uva2ka`. -/
def uva2ka (pgt : PageTable) (va : Nat) : MmM (Nat × PageTable) := do
  let (pa, pgt) ← uva2pa pgt va
  pure (if pa = 0 then 0 else P2V pa, pgt)

namespace Console

/-- `C`. -/
def C (x : Char) : BitVec 32 := BitVec.ofNat 32 x.toNat - BitVec.ofNat 32 '@'.toNat

/-- `BACKSPACE`. -/
def BACKSPACE : BitVec 32 := 127

/-- A character constant. -/
def chr (x : Char) : BitVec 32 := BitVec.ofNat 32 x.toNat

/-- `struct console`, without its lock. `readbuf` is `NULL` when no read is posted. -/
structure Fields where
  readbuf : Nat
  bufc : Nat
  bufsz : Nat

/-- The memory, by kernel addresses. -/
abbrev Memory := Nat → BitVec 8

/-- `c = (c == '\r')? '\n' : c`. -/
def newline (c : BitVec 32) : BitVec 32 := if c = chr '\r' then chr '\n' else c

/-- The second `switch` of `consoleintr`. -/
def Fields.press (cs : Fields) (mem : Memory) (c : BitVec 32) : Fields × Memory :=
  if c = BACKSPACE then
    if cs.bufc > 0 then ({ cs with bufc := cs.bufc - 1 }, mem) else (cs, mem)
  else if c = C 'D' then (cs, mem)
  else ({ cs with bufc := (cs.bufc + 1) % U64 }, Function.update mem ((cs.readbuf + cs.bufc) % U64) (c.truncate 8))

/-- `consoleintr`, up to its call of `wakeup`: the fields, the memory, and whether there is one. -/
def Fields.consoleintr (cs : Fields) (mem : Memory) (c : BitVec 32) : Fields × Memory × Bool :=
  if c = 0 then (cs, mem, false)
  else if c = C 'P' then (cs, mem, false)
  else if cs.readbuf = 0 then (cs, mem, false)
  else
    let c := newline c
    let (cs, mem) := cs.press mem c
    (cs, mem, c = chr '\n' ∨ c = C 'D' ∨ cs.bufc = cs.bufsz)

/-- Where a process is in `csread`. -/
inductive ReadPc
  | away
  /-- at `sleep`, with `cs->lk` -/
  | posted (chan : Nat)
  /-- in `sleep`, behind `release(lk)`, with `proctable.lk` -/
  | handing (chan : Nat)
  /-- at `cswitch` -/
  | off
  /-- back from `cswitch`, without a lock -/
  | back
  deriving DecidableEq

/-- Who holds `cs->lk`. -/
inductive Owner
  | reader (p : ProcId)
  | intr
  deriving DecidableEq

/-- A call of `csread`, and what has been handled since it was posted. -/
structure Read where
  proc : ProcId
  buf : Nat
  size : Nat
  typed : List (BitVec 32)

/-- One more character. -/
def Read.type (r : Read) (c : BitVec 32) : Read := { r with typed := r.typed ++ [c] }

/-- `cons1`, the two locks, the memory and the processes, with what `csread` has returned to each.
`read` is not in the code: the call that the fields are for. -/
structure State where
  cs : Fields
  lk : Option Owner
  tlk : Option ProcId
  mem : Memory
  mm : Kallocator
  pgt : ProcId → PageTable
  procs : Procs
  pc : ProcId → ReadPc
  res : ProcId → Int
  read : Option Read

/-- The sections: a process enters `csread`, gives up `cs->lk`, goes to sleep, is picked by the
scheduler, and leaves `csread`; a character is handled, with the call of `wakeup` that may follow;
and a process that is not in `csread` does anything else. -/
inductive Label
  | read (p : ProcId) (buf size : BitVec 64)
  | call (p : ProcId)
  | doze (p : ProcId)
  | pick (p : ProcId)
  | finish (p : ProcId)
  | input (c : BitVec 32)
  | wakeup
  | other (p : ProcId) (x : Proc)

/-- A `void *` as a channel. -/
def chanOf (a : Nat) : Option Chan := if a = 0 then none else some (.addr a)

/-- `csread`, up to its call of `sleep`, where `uva2ka` has returned `ka`. -/
def State.post (s : State) (p : ProcId) (buf size : BitVec 64) (ka : Nat) (pgt : PageTable) (mm : Kallocator) : State :=
  { s with
    cs := { readbuf := ka, bufc := 0, bufsz := size.toNat }
    lk := some (.reader p)
    pgt := Function.update s.pgt p pgt
    mm := mm
    pc := Function.update s.pc p (.posted ka)
    read := some { proc := p, buf := buf.toNat, size := size.toNat, typed := [] } }

/-- `sleep`, up to `release(lk)`. -/
def State.call (s : State) (p : ProcId) (chan : Nat) : State :=
  { s with lk := none, tlk := some p, pc := Function.update s.pc p (.handing chan) }

/-- `sleep`, up to `cswitch`. -/
def State.doze (s : State) (p : ProcId) (chan : Nat) : State :=
  { s with
    tlk := none
    procs := s.procs.set p fun q => { q with chan := chanOf chan, state := .SLEEPING }
    pc := Function.update s.pc p .off }

/-- The scheduler. -/
def State.pick (s : State) (p : ProcId) : State := { s with procs := s.procs.set p fun q => { q with state := .RUNNING } }

/-- The scheduler, and `sleep` up to `release(&proctable.lk)`. -/
def State.resume (s : State) (p : ProcId) : State :=
  { s with procs := s.procs.set p fun q => { q with state := .RUNNING, chan := none }, pc := Function.update s.pc p .back }

/-- `csread`, behind its call of `sleep`. -/
def State.finish (s : State) (p : ProcId) : State :=
  { s with
    cs := { readbuf := 0, bufc := 0, bufsz := 0 }
    pc := Function.update s.pc p .away
    res := Function.update s.res p (BitVec.ofNat 32 s.cs.bufc).toInt
    read := none }

/-- A character is handled. -/
def State.input (s : State) (c : BitVec 32) : State :=
  { s with
    cs := (s.cs.consoleintr s.mem c).1
    mem := (s.cs.consoleintr s.mem c).2.1
    lk := if (s.cs.consoleintr s.mem c).2.2 then some .intr else none
    read := s.read.map fun r => r.type c }

/-- `wakeup`, and the end of `consoleintr`. -/
def State.wakeup (s : State) : State := { s with procs := s.procs.wakeupAcquired (chanOf s.cs.readbuf), lk := none }

/-- One section. -/
def State.step (s : State) : Label → Option State
  | .read p buf size =>
    if s.pc p = .away ∧ (s.procs p).state = .RUNNING ∧ s.lk = none then
      match uva2ka (s.pgt p) buf.toNat s.mm with
      | .ok ((ka, pgt), mm) => some (s.post p buf size ka pgt mm)
      | .error _ => none
    else none
  | .call p =>
    match s.pc p with
    | .posted chan => if s.tlk = none then some (s.call p chan) else none
    | _ => none
  | .doze p =>
    match s.pc p with
    | .handing chan => some (s.doze p chan)
    | _ => none
  | .pick p =>
    if s.tlk = none ∧ (s.procs p).state = .RUNNABLE then
      if s.pc p = .off then some (s.resume p)
      else some (s.pick p)
    else none
  | .finish p => if s.pc p = .back ∧ s.lk = none then some (s.finish p) else none
  | .input c => if s.lk = none then some (s.input c) else none
  | .wakeup => if s.lk = some .intr ∧ s.tlk = none then some s.wakeup else none
  | .other p x => if s.pc p = .away ∧ s.tlk = none then some { s with procs := Function.update s.procs p x } else none

/-- A console that nobody reads. -/
def consoleSystem : System State Label where
  init s := s.cs = { readbuf := 0, bufc := 0, bufsz := 0 } ∧ s.lk = none ∧ s.tlk = none ∧ (∀ p, s.pc p = .away) ∧ s.read = none
  step := State.step

section Consoleintr
variable (cs : Fields) (mem : Memory) {c : BitVec 32}

theorem Fields.press_readbuf (c : BitVec 32) : (cs.press mem c).1.readbuf = cs.readbuf := by
  unfold Fields.press
  split_ifs <;> rfl

theorem Fields.press_bufsz (c : BitVec 32) : (cs.press mem c).1.bufsz = cs.bufsz := by
  unfold Fields.press
  split_ifs <;> rfl

/-- A key that is no input, or a console that nobody reads. -/
theorem Fields.consoleintr_ignores (no : c = 0 ∨ c = C 'P' ∨ cs.readbuf = 0) : cs.consoleintr mem c = (cs, mem, false) := by
  unfold Fields.consoleintr
  split_ifs with zero p null
  · rfl
  · rfl
  · rfl
  · exact absurd no (not_or.2 ⟨zero, not_or.2 ⟨p, null⟩⟩)

/-- Any other. -/
theorem Fields.consoleintr_presses (zero : c ≠ 0) (p : c ≠ C 'P') (buf : cs.readbuf ≠ 0) : cs.consoleintr mem c =
    ((cs.press mem (newline c)).1, (cs.press mem (newline c)).2,
      decide (newline c = chr '\n' ∨ newline c = C 'D' ∨ (cs.press mem (newline c)).1.bufc = (cs.press mem (newline c)).1.bufsz)) := by
  unfold Fields.consoleintr
  rw [if_neg zero, if_neg p, if_neg buf]

theorem Fields.consoleintr_readbuf (c : BitVec 32) : (cs.consoleintr mem c).1.readbuf = cs.readbuf := by
  unfold Fields.consoleintr
  split_ifs
  · rfl
  · rfl
  · rfl
  · exact cs.press_readbuf mem _

theorem Fields.consoleintr_bufsz (c : BitVec 32) : (cs.consoleintr mem c).1.bufsz = cs.bufsz := by
  unfold Fields.consoleintr
  split_ifs
  · rfl
  · rfl
  · rfl
  · exact cs.press_bufsz mem _

/-- The end of a line. -/
theorem Fields.consoleintr_ends (buf : cs.readbuf ≠ 0) (ending : c = chr '\n' ∨ c = chr '\r' ∨ c = C 'D') :
    (cs.consoleintr mem c).2.2 = true := by
  have known : c ≠ 0 ∧ c ≠ C 'P' ∧ (newline c = chr '\n' ∨ newline c = C 'D') := by
    rcases ending with rfl | rfl | rfl <;> decide
  rw [cs.consoleintr_presses mem known.1 known.2.1 buf]
  exact decide_eq_true (known.2.2.imp_right .inl)

end Consoleintr

/-- What a section can do. -/
inductive Step (s : State) : Label → State → Prop
  | read {p : ProcId} {buf size : BitVec 64} {ka : Nat} {pgt : PageTable} {mm : Kallocator} (away : s.pc p = .away)
      (runs : (s.procs p).state = .RUNNING) (free : s.lk = none) (walk : uva2ka (s.pgt p) buf.toNat s.mm = .ok ((ka, pgt), mm)) :
      Step s (.read p buf size) (s.post p buf size ka pgt mm)
  | call {p : ProcId} {chan : Nat} (at_ : s.pc p = .posted chan) (free : s.tlk = none) : Step s (.call p) (s.call p chan)
  | doze {p : ProcId} {chan : Nat} (at_ : s.pc p = .handing chan) : Step s (.doze p) (s.doze p chan)
  | resume {p : ProcId} (free : s.tlk = none) (ready : (s.procs p).state = .RUNNABLE) (at_ : s.pc p = .off) :
      Step s (.pick p) (s.resume p)
  | pick {p : ProcId} (free : s.tlk = none) (ready : (s.procs p).state = .RUNNABLE) (at_ : s.pc p ≠ .off) :
      Step s (.pick p) (s.pick p)
  | finish {p : ProcId} (at_ : s.pc p = .back) (free : s.lk = none) : Step s (.finish p) (s.finish p)
  | input {c : BitVec 32} (free : s.lk = none) : Step s (.input c) (s.input c)
  | wakeup (held : s.lk = some .intr) (free : s.tlk = none) : Step s .wakeup s.wakeup
  | other {p : ProcId} {x : Proc} (away : s.pc p = .away) (free : s.tlk = none) :
      Step s (.other p x) { s with procs := Function.update s.procs p x }

theorem State.step_inv {s t : State} {l : Label} (h : s.step l = some t) : Step s l t := by
  cases l with
  | read p buf size =>
    simp only [State.step] at h
    split at h
    · rename_i on
      split at h
      · cases h
        exact .read on.1 on.2.1 on.2.2 ‹_›
      · cases h
    · cases h
  | call p =>
    simp only [State.step] at h
    split at h
    · split at h
      · cases h
        exact .call ‹_› ‹_›
      · cases h
    · cases h
  | doze p =>
    simp only [State.step] at h
    split at h
    · cases h
      exact .doze ‹_›
    · cases h
  | pick p =>
    simp only [State.step] at h
    split at h
    · rename_i on
      split at h
      · cases h
        exact .resume on.1 on.2 ‹_›
      · cases h
        exact .pick on.1 on.2 ‹_›
    · cases h
  | finish p =>
    simp only [State.step] at h
    split at h
    · rename_i on
      cases h
      exact .finish on.1 on.2
    · cases h
  | input c =>
    simp only [State.step] at h
    split at h
    · cases h
      exact .input ‹_›
    · cases h
  | wakeup =>
    simp only [State.step] at h
    split at h
    · rename_i on
      cases h
      exact .wakeup on.1 on.2
    · cases h
  | other p x =>
    simp only [State.step] at h
    split at h
    · rename_i on
      cases h
      exact .other on.1 on.2
    · cases h

end Console

end Aarch64Os.Kernel
