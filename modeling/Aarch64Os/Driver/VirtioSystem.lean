import Aarch64Os.Base.Transition
import Aarch64Os.Driver.Virtio
import Aarch64Os.Kernel.Proc

/-!
# Processes, interrupts and the device around the block queue

`virtio_blk_op` runs in any number of processes, `virtio_blk_intr` on whichever CPU
takes the interrupt, and the device fetches published chains and completes them in
any order. `disk.lk` is held from entry to `sleep`, from the wakeup to the next
`sleep`, and by the handler throughout; each descriptor taken is a step of its own, so
a state is also reached in the middle of a critical section. `sleep` gives up the lock
and blocks in one step (`proctable.lk` covers the gap), and ends with the signal check:
a killed process leaves through `exitproc` with the lock still held.
-/

namespace Aarch64Os.Driver
set_option autoImplicit false
open Base
open Kernel (NPROC ProcId)

/-- A request with its three descriptors: the locals of `virtio_blk_op` once all are taken. -/
structure Chain where
  req : Req
  d0 : Fin NQUEUE
  d1 : Fin NQUEUE
  d2 : Fin NQUEUE
  deriving DecidableEq

/-- Where a process is in `virtio_blk_op`. -/
inductive Pc
  /-- not in the function -/
  | out
  /-- before `acquire(&disk.lk)` -/
  | enter (r : Req)
  /-- before the first, second and third `alloc_desc` -/
  | first (r : Req)
  | second (r : Req) (d0 : Fin NQUEUE)
  | third (r : Req) (d0 d1 : Fin NQUEUE)
  /-- chain built, not yet published -/
  | ready (c : Chain)
  /-- at `while(!done)` -/
  | test (c : Chain)
  /-- in `sleep`, blocked on the buffer -/
  | asleep (c : Chain)
  /-- in `sleep`, woken, before `acquire(lk)` -/
  | awake (c : Chain)
  /-- left through `sigcheck` and `exitproc` -/
  | dead (c : Chain)
  deriving DecidableEq

/-- The holder of `disk.lk`. -/
inductive Owner
  | proc (p : ProcId)
  | intr
  deriving DecidableEq

/-- The device: how far it has read the avail ring, and the heads it works on. -/
structure Device where
  lastAvail : BitVec 16
  pending : List (Fin NQUEUE)

/-- The queue with everything that runs around it. -/
structure State where
  vq : Virtq
  lk : Option Owner
  pc : ProcId → Pc
  sig : ProcId → Bool
  dev : Device
  panicked : Option String

/-- One step of a process, the interrupt handler or the device. -/
inductive Label
  | call (p : ProcId) (r : Req)
  | acquire (p : ProcId)
  | alloc (p : ProcId)
  | publish (p : ProcId)
  | test (p : ProcId)
  | kill (p : ProcId)
  | intr
  | intrEntry
  | intrExit
  | fetch
  | complete (d0 : Fin NQUEUE) (status : BitVec 8)

/-- Move process `p`. -/
def State.go (s : State) (p : ProcId) (pc : Pc) : State :=
  { s with pc := Function.update s.pc p pc }

/-- `wakeup(chan)` seen by one process. -/
def Pc.wake (chan : Option BufPtr) : Pc → Pc
  | .asleep c => if chan = some c.req.buf then .awake c else .asleep c
  | pc => pc

/-- `kill` seen by its target: a sleeper becomes runnable. -/
def Pc.rouse : Pc → Pc
  | .asleep c => .awake c
  | pc => pc

/-- Take one descriptor and fill it; an exhausted list is a panic. -/
def State.take (s : State) (p : ProcId) (fill : Fin NQUEUE → Virtq → Virtq) (pc : Fin NQUEUE → Pc) : State :=
  match allocDesc s.vq with
  | .error m => { s with panicked := some m }
  | .ok (d, vq) => { s.go p (pc d) with vq := fill d vq }

/-- The three `alloc_desc` calls of `virtio_blk_op`. -/
def State.alloc (s : State) (p : ProcId) : Option State :=
  match s.pc p with
  | .first r => some (s.take p (fun d vq => fillHdr vq r d) fun d => .second r d)
  | .second r d0 => some (s.take p (fun d vq => fillData vq r d0 d) fun d => .third r d0 d)
  | .third r d0 d1 => some (s.take p (fun d vq => fillStatus vq d0 d1 d) fun d => .ready ⟨r, d0, d1, d⟩)
  | _ => none

/-- Take `disk.lk`, on entry or at the end of `sleep`. -/
def State.acquire (s : State) (p : ProcId) : Option State :=
  if s.lk.isSome then none
  else
    match s.pc p with
    | .enter r => some { s.go p (.first r) with lk := some (.proc p) }
    | .awake c =>
      some { s.go p (if s.sig p then .dead c else .test c) with
        lk := some (.proc p), sig := Function.update s.sig p false }
    | _ => none

/-- `while(!done) sleep`: return the chain to the free list if the request is done. -/
def State.test (s : State) (p : ProcId) : Option State :=
  match s.pc p with
  | .test c =>
    if (s.vq.info c.d0).done then
      (freeDesc (s.vq.setInfo c.d0 fun i => { i with done := false }) c.d0).map fun vq =>
        { s.go p .out with vq := vq, lk := none }
    else some { s.go p (.asleep c) with lk := none }
  | _ => none

/-- One entry of the used ring, handled by `virtio_blk_intr`. -/
def State.intrEntry (s : State) : State :=
  match Driver.intrEntry s.vq with
  | .error m => { s with panicked := some m }
  | .ok (chan, vq) => { s with vq := vq, pc := fun p => (s.pc p).wake chan }

/-- The device completes a chain: it writes the status byte and appends to the used ring. -/
def State.complete (s : State) (d0 : Fin NQUEUE) (status : BitVec 8) : State :=
  { s with
    vq := { s.vq.setInfo d0 fun i => { i with status := status } with used := s.vq.used.push d0 }
    dev := { s.dev with pending := s.dev.pending.erase d0 } }

/-- The step function; a panic stops the machine. -/
def State.step (s : State) (a : Label) : Option State :=
  if s.panicked.isSome then none
  else
    match a with
    | .call p r => if s.pc p = .out then some (s.go p (.enter r)) else none
    | .acquire p => s.acquire p
    | .alloc p => s.alloc p
    | .publish p =>
      match s.pc p with
      | .ready c => some { s.go p (.test c) with vq := Driver.publish s.vq c.req c.d0 }
      | _ => none
    | .test p => s.test p
    | .kill p => some { s.go p (s.pc p).rouse with sig := Function.update s.sig p true }
    | .intr => if s.lk.isSome then none else some { s with lk := some .intr }
    | .intrEntry => if s.lk = some .intr ∧ s.vq.lastUsedIdx ≠ s.vq.used.idx then some s.intrEntry else none
    | .intrExit => if s.lk = some .intr ∧ s.vq.lastUsedIdx = s.vq.used.idx then some { s with lk := none } else none
    | .fetch =>
      if s.dev.lastAvail = s.vq.avail.idx then none
      else
        some { s with dev :=
          { lastAvail := s.dev.lastAvail + 1
            pending := s.vq.avail.ring (slot s.dev.lastAvail) :: s.dev.pending } }
    | .complete d0 status => if d0 ∈ s.dev.pending then some (s.complete d0 status) else none

/-- After `virtio_init`: nobody is in the driver, the device is idle. -/
def State.boot : State where
  vq := virtqInit
  lk := none
  pc := fun _ => .out
  sig := fun _ => false
  dev := { lastAvail := 0, pending := [] }
  panicked := none

/-- Block I/O as a transition system. -/
def diskSystem : System State Label where
  init s := s = State.boot
  step := State.step

/-- How many descriptors `virtio_blk_op` still has to take. -/
def Pc.need : Pc → Nat
  | .first _ => 3
  | .second _ _ => 2
  | .third _ _ _ => 1
  | _ => 0

/-- What each label can do, one constructor for every branch of the step function. -/
inductive Step (s : State) : Label → State → Prop
  | call {p : ProcId} (r : Req) : s.pc p = .out → Step s (.call p r) (s.go p (.enter r))
  | enter {p : ProcId} {r : Req} : s.lk = none → s.pc p = .enter r →
      Step s (.acquire p) { s.go p (.first r) with lk := some (.proc p) }
  | wake {p : ProcId} {c : Chain} : s.lk = none → s.pc p = .awake c →
      Step s (.acquire p) { s.go p (if s.sig p then .dead c else .test c) with
        lk := some (.proc p), sig := Function.update s.sig p false }
  | exhausted {p : ProcId} : 0 < (s.pc p).need → s.vq.nfree = 0 → Step s (.alloc p) { s with panicked := some "virtq kokatu" }
  | first {p : ProcId} {r : Req} : 0 < s.vq.nfree → s.pc p = .first r →
      Step s (.alloc p) { s.go p (.second r s.vq.freeHead) with vq := fillHdr s.vq.pop r s.vq.freeHead }
  | second {p : ProcId} {r : Req} {d0 : Fin NQUEUE} : 0 < s.vq.nfree → s.pc p = .second r d0 →
      Step s (.alloc p) { s.go p (.third r d0 s.vq.freeHead) with vq := fillData s.vq.pop r d0 s.vq.freeHead }
  | third {p : ProcId} {r : Req} {d0 d1 : Fin NQUEUE} : 0 < s.vq.nfree → s.pc p = .third r d0 d1 →
      Step s (.alloc p) { s.go p (.ready ⟨r, d0, d1, s.vq.freeHead⟩) with
        vq := fillStatus s.vq.pop d0 d1 s.vq.freeHead }
  | publish {p : ProcId} {c : Chain} : s.pc p = .ready c →
      Step s (.publish p) { s.go p (.test c) with vq := Driver.publish s.vq c.req c.d0 }
  | finish {p : ProcId} {c : Chain} {vq : Virtq} : s.pc p = .test c → (s.vq.info c.d0).done = true →
      freeDesc (s.vq.setInfo c.d0 fun i => { i with done := false }) c.d0 = some vq →
      Step s (.test p) { s.go p .out with vq := vq, lk := none }
  | sleep {p : ProcId} {c : Chain} : s.pc p = .test c → (s.vq.info c.d0).done = false →
      Step s (.test p) { s.go p (.asleep c) with lk := none }
  | kill (p : ProcId) : Step s (.kill p) { s.go p (s.pc p).rouse with sig := Function.update s.sig p true }
  | intr : s.lk = none → Step s .intr { s with lk := some .intr }
  | diskError : s.lk = some .intr → Step s .intrEntry { s with panicked := some "disk op error" }
  | intrEntry : s.lk = some .intr → s.vq.lastUsedIdx ≠ s.vq.used.idx →
      (s.vq.info (s.vq.used.ring (slot s.vq.lastUsedIdx))).status = 0 →
      Step s .intrEntry { s with
        vq := { s.vq.setInfo (s.vq.used.ring (slot s.vq.lastUsedIdx)) fun i => { i with done := true, buf := none } with
          lastUsedIdx := s.vq.lastUsedIdx + 1 }
        pc := fun p => (s.pc p).wake (s.vq.info (s.vq.used.ring (slot s.vq.lastUsedIdx))).buf }
  | intrExit : s.lk = some .intr → Step s .intrExit { s with lk := none }
  | fetch : s.dev.lastAvail ≠ s.vq.avail.idx →
      Step s .fetch { s with dev :=
        { lastAvail := s.dev.lastAvail + 1
          pending := s.vq.avail.ring (slot s.dev.lastAvail) :: s.dev.pending } }
  | complete {d0 : Fin NQUEUE} {status : BitVec 8} : d0 ∈ s.dev.pending →
      Step s (.complete d0 status) (s.complete d0 status)

theorem State.take_pos {s : State} {p : ProcId} {fill : Fin NQUEUE → Virtq → Virtq} {pc : Fin NQUEUE → Pc}
    (h : 0 < s.vq.nfree) :
    s.take p fill pc = { s.go p (pc s.vq.freeHead) with vq := fill s.vq.freeHead s.vq.pop } := by
  simp only [State.take, allocDesc_pos h]

theorem State.take_zero {s : State} {p : ProcId} {fill : Fin NQUEUE → Virtq → Virtq} {pc : Fin NQUEUE → Pc}
    (h : s.vq.nfree = 0) : s.take p fill pc = { s with panicked := some "virtq kokatu" } := by
  simp only [State.take, allocDesc_zero h]

/-- **Inversion of the step function.** -/
theorem State.step_inv {s t : State} {a : Label} (h : s.step a = some t) : Step s a t := by
  unfold State.step at h
  split at h
  · cases h
  cases a with
  | call p r =>
    dsimp only at h
    split at h
    · cases h; exact .call r ‹_›
    · cases h
  | acquire p =>
    simp only [State.acquire] at h
    split at h
    · cases h
    have free : s.lk = none := by simpa using ‹¬ s.lk.isSome = true›
    split at h
    · cases h; exact .enter free ‹_›
    · cases h; exact .wake free ‹_›
    · cases h
  | alloc p =>
    simp only [State.alloc] at h
    rcases Nat.eq_zero_or_pos s.vq.nfree with zero | pos
    · simp only [State.take_zero zero] at h
      split at h
      · cases h; exact .exhausted (by simp [*, Pc.need]) zero
      · cases h; exact .exhausted (by simp [*, Pc.need]) zero
      · cases h; exact .exhausted (by simp [*, Pc.need]) zero
      · cases h
    · simp only [State.take_pos pos] at h
      split at h
      · cases h; exact .first pos ‹_›
      · cases h; exact .second pos ‹_›
      · cases h; exact .third pos ‹_›
      · cases h
  | publish p =>
    dsimp only at h
    split at h
    · cases h; exact .publish ‹_›
    · cases h
  | test p =>
    simp only [State.test] at h
    split at h
    · split at h
      · obtain ⟨vq, hf, rfl⟩ := Option.map_eq_some_iff.1 h
        exact .finish ‹_› ‹_› hf
      · cases h; exact .sleep ‹_› (by simpa using ‹¬ _ = true›)
    · cases h
  | kill p => cases h; exact .kill p
  | intr =>
    dsimp only at h
    split at h
    · cases h
    · cases h; exact .intr (by simpa using ‹¬ s.lk.isSome = true›)
  | intrEntry =>
    dsimp only at h
    split at h
    · obtain ⟨held, more⟩ := ‹_ ∧ _›
      cases h
      simp only [State.intrEntry, Driver.intrEntry]
      by_cases bad : (s.vq.info (s.vq.used.ring (slot s.vq.lastUsedIdx))).status = 0
      · simp only [bad, ne_eq, not_true_eq_false, ↓reduceIte]
        exact .intrEntry held more bad
      · simp only [bad, ne_eq, not_false_eq_true, ↓reduceIte]
        exact .diskError held
    · cases h
  | intrExit =>
    dsimp only at h
    split at h
    · cases h; exact .intrExit (‹_ ∧ _›).1
    · cases h
  | fetch =>
    dsimp only at h
    split at h
    · cases h
    · cases h; exact .fetch ‹_›
  | complete d0 status =>
    dsimp only at h
    split at h
    · cases h; exact .complete ‹_›
    · cases h

/-- The descriptors a process has taken and not returned. -/
def Pc.held : Pc → List (Fin NQUEUE)
  | .out | .enter _ | .first _ => []
  | .second _ d0 => [d0]
  | .third _ d0 d1 => [d0, d1]
  | .ready c | .test c | .asleep c | .awake c | .dead c => [c.d0, c.d1, c.d2]

/-- The process is between taking `disk.lk` and giving it up. -/
def Pc.locked : Pc → Bool
  | .out | .enter _ | .asleep _ | .awake _ => false
  | _ => true

@[simp] theorem Pc.held_wake (pc : Pc) (chan : Option BufPtr) : (pc.wake chan).held = pc.held := by
  cases pc <;> simp only [Pc.wake]
  split <;> rfl

@[simp] theorem Pc.locked_wake (pc : Pc) (chan : Option BufPtr) : (pc.wake chan).locked = pc.locked := by
  cases pc <;> simp only [Pc.wake]
  split <;> rfl

@[simp] theorem Pc.need_wake (pc : Pc) (chan : Option BufPtr) : (pc.wake chan).need = pc.need := by
  cases pc <;> simp only [Pc.wake]
  split <;> rfl

@[simp] theorem Pc.need_rouse (pc : Pc) : pc.rouse.need = pc.need := by cases pc <;> rfl

@[simp] theorem Pc.held_rouse (pc : Pc) : pc.rouse.held = pc.held := by cases pc <;> rfl

@[simp] theorem Pc.locked_rouse (pc : Pc) : pc.rouse.locked = pc.locked := by cases pc <;> rfl

/-- The descriptors met by following `next` from `free_head`, `nfree` of them. -/
def Virtq.cells (vq : Virtq) : List (Fin NQUEUE) := List.iterate (fun d => (vq.desc d).next) vq.freeHead vq.nfree

/-- The requests not yet returned to the free list, as the processes that made them. -/
def State.inFlight (s : State) : Finset ProcId := Finset.univ.filter fun p => (s.pc p).held ≠ []

end Aarch64Os.Driver
