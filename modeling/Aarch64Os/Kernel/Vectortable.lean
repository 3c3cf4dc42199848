import Aarch64Os.Base.SavedWords

/-!
# Entering and leaving the kernel (`kernel/vectortable.S`)

Each exception comes to its entry of the vector table, which branches to code that puts all
registers in a `struct trapframe` below the kernel's stack pointer and calls a handler in C with
its address. Behind the call the registers are taken from there.
-/

namespace Aarch64Os.Kernel
set_option autoImplicit false
open Base.Aarch64

/-- `struct trapframe`. -/
structure Trapframe where
  x : Fin 31 → Word
  elr : Word
  spsr : Word
  sp : Word

/-- The frame at an address. -/
def trapframeAt (m : Mem) (a : Word) : Trapframe where
  x n := m (slot a n)
  elr := m (slot a 31)
  spsr := m (slot a 32)
  sp := m (slot a 33)

/-- `ksavereg`. -/
def ksavereg : List Op :=
  [.subImm .sp .sp 272,
   .stp (.x 0) (.x 1) .sp (16 * 0),
   .stp (.x 2) (.x 3) .sp (16 * 1),
   .stp (.x 4) (.x 5) .sp (16 * 2),
   .stp (.x 6) (.x 7) .sp (16 * 3),
   .stp (.x 8) (.x 9) .sp (16 * 4),
   .stp (.x 10) (.x 11) .sp (16 * 5),
   .stp (.x 12) (.x 13) .sp (16 * 6),
   .stp (.x 14) (.x 15) .sp (16 * 7),
   .stp (.x 16) (.x 17) .sp (16 * 8),
   .stp (.x 18) (.x 19) .sp (16 * 9),
   .stp (.x 20) (.x 21) .sp (16 * 10),
   .stp (.x 22) (.x 23) .sp (16 * 11),
   .stp (.x 24) (.x 25) .sp (16 * 12),
   .stp (.x 26) (.x 27) .sp (16 * 13),
   .stp (.x 28) (.x 29) .sp (16 * 14),
   .mrs (.x 9) .elr_el1,
   .mrs (.x 10) .spsr_el1,
   .addImm (.x 11) .sp 272,
   .stp (.x 30) (.x 9) .sp (16 * 15),
   .stp (.x 10) (.x 11) .sp (16 * 16)]

/-- `savereg`. -/
def savereg : List Op :=
  [.subImm .sp .sp 272,
   .stp (.x 0) (.x 1) .sp (16 * 0),
   .stp (.x 2) (.x 3) .sp (16 * 1),
   .stp (.x 4) (.x 5) .sp (16 * 2),
   .stp (.x 6) (.x 7) .sp (16 * 3),
   .stp (.x 8) (.x 9) .sp (16 * 4),
   .stp (.x 10) (.x 11) .sp (16 * 5),
   .stp (.x 12) (.x 13) .sp (16 * 6),
   .stp (.x 14) (.x 15) .sp (16 * 7),
   .stp (.x 16) (.x 17) .sp (16 * 8),
   .stp (.x 18) (.x 19) .sp (16 * 9),
   .stp (.x 20) (.x 21) .sp (16 * 10),
   .stp (.x 22) (.x 23) .sp (16 * 11),
   .stp (.x 24) (.x 25) .sp (16 * 12),
   .stp (.x 26) (.x 27) .sp (16 * 13),
   .stp (.x 28) (.x 29) .sp (16 * 14),
   .mrs (.x 9) .elr_el1,
   .mrs (.x 10) .spsr_el1,
   .mrs (.x 11) .sp_el0,
   .stp (.x 30) (.x 9) .sp (16 * 15),
   .stp (.x 10) (.x 11) .sp (16 * 16)]

/-- `restorereg`. -/
def restorereg : List Op :=
  [.ldp (.x 30) (.x 9) .sp (16 * 15),
   .ldp (.x 10) (.x 11) .sp (16 * 16),
   .msr .elr_el1 (.x 9),
   .msr .spsr_el1 (.x 10),
   .msr .sp_el0 (.x 11),
   .ldp (.x 0) (.x 1) .sp (16 * 0),
   .ldp (.x 2) (.x 3) .sp (16 * 1),
   .ldp (.x 4) (.x 5) .sp (16 * 2),
   .ldp (.x 6) (.x 7) .sp (16 * 3),
   .ldp (.x 8) (.x 9) .sp (16 * 4),
   .ldp (.x 10) (.x 11) .sp (16 * 5),
   .ldp (.x 12) (.x 13) .sp (16 * 6),
   .ldp (.x 14) (.x 15) .sp (16 * 7),
   .ldp (.x 16) (.x 17) .sp (16 * 8),
   .ldp (.x 18) (.x 19) .sp (16 * 9),
   .ldp (.x 20) (.x 21) .sp (16 * 10),
   .ldp (.x 22) (.x 23) .sp (16 * 11),
   .ldp (.x 24) (.x 25) .sp (16 * 12),
   .ldp (.x 26) (.x 27) .sp (16 * 13),
   .ldp (.x 28) (.x 29) .sp (16 * 14),
   .addImm .sp .sp 272]

/-- The handlers in C. -/
structure Handlers where
  ksync_handler : Word
  kirq_handler : Word
  usync_handler : Word
  uirq_handler : Word
  debug_trap : Word
  unknownint : Word

/-- The code of an exception: all is saved, the handler called, and all restored. -/
def trapCode (save : List Op) (handler : Word) : List Instr :=
  save.map .op ++ [.op (.mov (.x 0) .sp), .bl handler] ++ (restorereg.map .op ++ [.eret])

/-- Behind the vector table. -/
def trapText (c : Handlers) : List Instr :=
  trapCode savereg c.debug_trap ++ (trapCode ksavereg c.ksync_handler ++ (trapCode ksavereg c.kirq_handler ++
    (trapCode savereg c.usync_handler ++ trapCode savereg c.uirq_handler)))

/-- The labels in it, for a vector table at `v`. -/
def debugtrap (v : Word) : Word := v + 0x788
def el1h_sync (v : Word) : Word := debugtrap v + 4 * 45
def el1h_irq (v : Word) : Word := el1h_sync v + 4 * 45
def el0_sync (v : Word) : Word := el1h_irq v + 4 * 45
def el0_irq (v : Word) : Word := el0_sync v + 4 * 45

/-- `trapret`. -/
def trapret (v : Word) : Word := el0_irq v + 4 * 23

/-- The entries of `vectortable`. -/
def vectortable (v : Word) (c : Handlers) : List (List Instr) :=
  [[.op (.movImm (.x 0) 0), .b c.unknownint],
   [.op (.movImm (.x 0) 1), .b c.unknownint],
   [.op (.movImm (.x 0) 2), .b c.unknownint],
   [.op (.movImm (.x 0) 3), .b c.unknownint],
   [.b (el1h_sync v)],
   [.b (el1h_irq v)],
   [.op (.movImm (.x 0) 4), .b c.unknownint],
   [.op (.movImm (.x 0) 5), .b c.unknownint],
   [.b (el0_sync v)],
   [.b (el0_irq v)],
   [.op (.movImm (.x 0) 8), .b c.unknownint],
   [.op (.movImm (.x 0) 9), .b c.unknownint],
   [.op (.movImm (.x 0) 10), .b c.unknownint],
   [.op (.movImm (.x 0) 11), .b c.unknownint],
   [.op (.movImm (.x 0) 12), .b c.unknownint],
   [.op (.movImm (.x 0) 13), .b c.unknownint]]

/-- The file is in memory, with its vector table at `v`. -/
structure Vectortable (code : Code) (v : Word) (c : Handlers) : Prop where
  entry : ∀ k (h : k < (vectortable v c).length), code.At (v + BitVec.ofNat 64 (0x80 * k)) (vectortable v c)[k]
  text : code.At (debugtrap v) (trapText c)

/-- The file as pieces of code. -/
def vectorPieces (v : Nat) (c : Handlers) : List (Nat × List Instr) :=
  (vectortable (BitVec.ofNat 64 v) c).mapIdx (fun k is => (v + 0x80 * k, is)) ++ [(v + 0x788, trapText c)]

/-- A program that these are linked into. -/
theorem Vectortable.load {pieces : List (Nat × List Instr)} {v : Nat} {c : Handlers}
    (apart : pieces.Pairwise fun p q => p.1 + 4 * p.2.length ≤ q.1) (small : ∀ p ∈ pieces, p.1 + 4 * p.2.length ≤ 2 ^ 64)
    (linked : ∀ p ∈ vectorPieces v c, p ∈ pieces) : Vectortable (Code.load pieces) (BitVec.ofNat 64 v) c := by
  constructor
  · intro k lt
    have mem : (v + 0x80 * k, (vectortable (BitVec.ofNat 64 v) c)[k]) ∈ vectorPieces v c :=
      List.mem_append_left _ (List.mem_mapIdx.2 ⟨k, lt, rfl⟩)
    have there := Code.load_at apart small (linked _ mem)
    rwa [BitVec.ofNat_add] at there
  · have mem : (v + 0x788, trapText c) ∈ vectorPieces v c := List.mem_append_right _ (List.mem_singleton.2 rfl)
    have there := Code.load_at apart small (linked _ mem)
    rwa [BitVec.ofNat_add] at there

/-- The pairs of registers that both macros save. -/
def savedPairs : List (Fin 31 × Fin 31) :=
  [(0, 1), (2, 3), (4, 5), (6, 7), (8, 9), (10, 11), (12, 13), (14, 15), (16, 17), (18, 19), (20, 21), (22, 23), (24, 25), (26, 27), (28, 29)]

/-- Either macro, by how it comes by the stack pointer. -/
def saves (last : Op) : List Op :=
  .subImm .sp .sp 272 :: (stps .sp 0 (savedPairs.map fun p => (.x p.1, .x p.2)) ++
    (.mrs (.x 9) .elr_el1 :: .mrs (.x 10) .spsr_el1 :: last :: stps .sp 240 [(.x 30, .x 9), (.x 10, .x 11)]))

theorem savereg_eq : savereg = saves (.mrs (.x 11) .sp_el0) := rfl

theorem ksavereg_eq : ksavereg = saves (.addImm (.x 11) .sp 272) := rfl

theorem restorereg_eq : restorereg = ldps .sp 240 [(30, 9), (10, 11)] ++
    (.msr .elr_el1 (.x 9) :: .msr .spsr_el1 (.x 10) :: .msr .sp_el0 (.x 11) :: (ldps .sp 0 savedPairs ++ [.addImm .sp .sp 272])) := rfl

/-- What a frame holds, word by word. -/
def Trapframe.words (f : Trapframe) : List Word := (savedPairs.flatMap fun p => [f.x p.1, f.x p.2]) ++ [f.x 30, f.elr, f.spsr, f.sp]

section Frames
variable {s : State} {last : Op} {w : Word}

theorem Trapframe.words_length (f : Trapframe) : f.words.length = 34 := rfl

theorem Trapframe.words_x (f : Trapframe) (n : Fin 31) : f.words[(n : Nat)]? = some (f.x n) := by
  fin_cases n <;> rfl

/-- A frame that has been stored. -/
theorem trapframeAt_put (m : Mem) (a : Word) (f : Trapframe) : trapframeAt (m.put a f.words) a = f := by
  have word : ∀ k w, f.words[k]? = some w → m.put a f.words (slot a k) = w := by
    intro k w here
    obtain ⟨lt, rfl⟩ := List.getElem?_eq_some_iff.1 here
    exact Mem.put_slot (by rw [f.words_length]; decide) lt
  have regs : (fun n : Fin 31 => m.put a f.words (slot a n)) = f.x := funext fun n => word n _ (f.words_x n)
  unfold trapframeAt
  rw [word 31 f.elr rfl, word 32 f.spsr rfl, word 33 f.sp rfl, regs]

/-- The words of a frame are all that it depends on. -/
theorem trapframeAt_congr {m m' : Mem} {a : Word} (same : ∀ k < 34, m' (slot a k) = m (slot a k)) : trapframeAt m' a = trapframeAt m a := by
  unfold trapframeAt
  rw [same 31 (by decide), same 32 (by decide), same 33 (by decide)]
  congr 1
  funext n
  exact same n (by omega)

/-- A stack pointer stays aligned below a frame. -/
theorem sp_el1_sub (aligned : s.sp_el1.toNat % 16 = 0) : (s.sp_el1 - 272).toNat % 16 = 0 := by
  rw [BitVec.toNat_sub]
  show (2 ^ 64 - 272 + s.sp_el1.toNat) % 2 ^ 64 % 16 = 0
  omega

/-- **Saving.** All registers are put below the stack pointer, with what an exception leaves in system registers. -/
theorem runs_saves (mode : s.mode = EL1h) (aligned : s.sp_el1.toNat % 16 = 0)
    (stack : ∀ t : State, t.mode = EL1h → t.sp_el1 = s.sp_el1 - 272 → t.sys = s.sys → last.exec t = some (t.setX 11 w).next) :
    Op.runs (saves last) s = some { s with
      x := Function.update (Function.update (Function.update s.x 9 (s.sys .elr_el1)) 10 (s.sys .spsr_el1)) 11 w
      sp_el1 := s.sp_el1 - 272
      mem := s.mem.put (s.sp_el1 - 272) (Trapframe.words ⟨s.x, s.sys .elr_el1, s.sys .spsr_el1, w⟩)
      pc := s.pc + 84 } := by
  have below := sp_el1_sub aligned
  -- down to the frame
  let t : State := { s with sp_el1 := s.sp_el1 - 272, pc := s.pc + 4 }
  have down : Op.exec (.subImm .sp .sp 272) s = some t := by
    rw [Op.exec, State.get_sp mode, State.set_sp mode]
    rfl
  have through : ∀ {u : State} {off : Word}, u.mode = EL1h → u.sp_el1 = s.sp_el1 - 272 → off.toNat % 8 = 0 → u.Through .sp off := by
    intro u off mode' eq word
    refine ⟨fun _ => ?_, ?_⟩
    · show (u.get .sp).toNat % 16 = 0
      rw [State.get_sp mode', eq]
      exact below
    · rw [State.get_sp mode', eq, BitVec.toNat_add]
      omega
  refine Op.runs_cons down ?_
  -- the pairs
  let words := savedPairs.flatMap fun p => [s.x p.1, s.x p.2]
  let u : State := { s with sp_el1 := s.sp_el1 - 272, mem := s.mem.put (s.sp_el1 - 272) words, pc := s.pc + 64 }
  have pairs : Op.runs (stps .sp 0 (savedPairs.map fun p => (.x p.1, .x p.2))) t = some u := by
    have at_t : t.Through .sp 0 := through mode rfl (by decide)
    rw [runs_stps _ at_t, State.get_sp (s := t) mode, show t.sp_el1 + (0 : Word) = s.sp_el1 - 272 from BitVec.add_zero _,
      show t.pc + _ = s.pc + 64 from BitVec.add_assoc ..]
    rfl
  refine Op.runs_append pairs ?_
  -- three more registers
  let v : State := (((u.setX 9 (s.sys .elr_el1)).next.setX 10 (s.sys .spsr_el1)).next.setX 11 w).next
  refine Op.runs_cons (t := (u.setX 9 (s.sys .elr_el1)).next) (if_pos mode) ?_
  refine Op.runs_cons (t := ((u.setX 9 (s.sys .elr_el1)).next.setX 10 (s.sys .spsr_el1)).next) (if_pos mode) ?_
  refine Op.runs_cons (t := v) (stack _ mode rfl rfl) ?_
  have at_v : v.Through .sp 240 := through mode rfl (by decide)
  rw [runs_stps _ at_v, State.get_sp (s := v) mode]
  have behind : v.sp_el1 + 240 = slot (s.sp_el1 - 272) words.length := rfl
  have place : v.pc + BitVec.ofNat 64 (4 * 2) = s.pc + 84 := by
    show s.pc + 64 + 4 + 4 + 4 + 8 = _
    simp only [BitVec.add_assoc]
    rfl
  rw [behind]
  show some { v with mem := (s.mem.put (s.sp_el1 - 272) words).put _ [s.x 30, s.sys .elr_el1, s.sys .spsr_el1, w], pc := v.pc + BitVec.ofNat 64 (4 * 2) } = _
  rw [← Mem.put_append, place]
  rfl
/-- The registers of a frame. -/
theorem fill_savedPairs (x : Fin 31 → Word) (m : Mem) (a : Word) (last : x 30 = m (slot a 30)) :
    fill x m a (savedPairs.flatMap fun p => [p.1, p.2]) = (trapframeAt m a).x := by
  have listed : ∀ n : Fin 31, n ≠ 30 → (savedPairs.flatMap fun p => [p.1, p.2])[(n : Nat)]? = some n := by decide
  funext n
  by_cases eq : n = 30
  · subst eq
    exact (fill_other (by decide)).trans last
  · obtain ⟨lt, same⟩ := List.getElem?_eq_some_iff.1 (listed n eq)
    have loaded := fill_getElem (x := x) (m := m) (a := a) (by decide) lt
    rwa [same] at loaded

/-- **Restoring.** All registers are taken from the frame at the stack pointer, and it is let go. -/
theorem runs_restorereg (mode : s.mode = EL1h) (aligned : s.sp_el1.toNat % 16 = 0) :
    Op.runs restorereg s = some { s with
      x := (trapframeAt s.mem s.sp_el1).x
      sp_el1 := s.sp_el1 + 272
      sys := Function.update (Function.update (Function.update s.sys .elr_el1 (trapframeAt s.mem s.sp_el1).elr)
        .spsr_el1 (trapframeAt s.mem s.sp_el1).spsr) .sp_el0 (trapframeAt s.mem s.sp_el1).sp
      pc := s.pc + 84 } := by
  have through : ∀ {u : State} {off : Word}, u.mode = EL1h → u.sp_el1 = s.sp_el1 → off.toNat % 8 = 0 → u.Through .sp off := by
    intro u off mode' eq word
    refine ⟨fun _ => ?_, ?_⟩
    · show (u.get .sp).toNat % 16 = 0
      rw [State.get_sp mode', eq]
      exact aligned
    · rw [State.get_sp mode', eq, BitVec.toNat_add]
      omega
  have apart : ∀ r, Reg.sp ≠ .x r := by
    intro r eq
    cases eq
  rw [restorereg_eq]
  -- the last four words first
  let rs : List (Fin 31) := [30, 9, 10, 11]
  let x := fill s.x s.mem (s.sp_el1 + 240) rs
  let t : State := { s with x := x, pc := s.pc + 8 }
  have top : Op.runs (ldps .sp 240 [(30, 9), (10, 11)]) s = some t := by
    have at_s : s.Through .sp 240 := through mode rfl (by decide)
    rw [runs_ldps _ at_s fun p _ => ⟨apart p.1, apart p.2⟩, State.get_sp mode]
    rfl
  have word : ∀ k (lt : k < rs.length), x rs[k] = s.mem (slot s.sp_el1 (30 + k)) := by
    intro k lt
    have place : slot (s.sp_el1 + 240) k = slot s.sp_el1 (30 + k) := slot_add s.sp_el1 30 k
    rw [← place]
    exact fill_getElem (by decide) lt
  refine Op.runs_append top ?_
  let u : State := (((t.setSys .elr_el1 (x 9)).next.setSys .spsr_el1 (x 10)).next.setSys .sp_el0 (x 11)).next
  refine Op.runs_cons (t := (t.setSys .elr_el1 (x 9)).next) (if_pos mode) ?_
  refine Op.runs_cons (t := ((t.setSys .elr_el1 (x 9)).next.setSys .spsr_el1 (x 10)).next) (if_pos mode) ?_
  refine Op.runs_cons (t := u) (if_pos mode) ?_
  -- then the pairs
  have zero : 0 < rs.length := by decide
  have thirty : x 30 = s.mem (slot s.sp_el1 30) := word 0 zero
  let v : State := { u with x := (trapframeAt s.mem s.sp_el1).x, pc := s.pc + 80 }
  have pairs : Op.runs (ldps .sp 0 savedPairs) u = some v := by
    have at_u : u.Through .sp 0 := through mode rfl (by decide)
    have place : u.pc + BitVec.ofNat 64 (4 * savedPairs.length) = s.pc + 80 := by
      show s.pc + 8 + 4 + 4 + 4 + 60 = _
      simp only [BitVec.add_assoc]
      rfl
    rw [runs_ldps _ at_u fun p _ => ⟨apart p.1, apart p.2⟩, State.get_sp (s := u) mode, place, show u.sp_el1 + (0 : Word) = s.sp_el1 from BitVec.add_zero _,
      fill_savedPairs u.x u.mem s.sp_el1 thirty]
    rfl
  refine Op.runs_append pairs ?_
  have up : Op.exec (.addImm .sp .sp 272) v = some { v with sp_el1 := s.sp_el1 + 272, pc := s.pc + 84 } := by
    have place : v.pc + 4 = s.pc + 84 := BitVec.add_assoc ..
    have mode_v : v.mode = EL1h := mode
    rw [Op.exec, State.get_sp mode_v, State.set_sp mode_v, ← place]
    rfl
  have nine := word 1 (by decide)
  have ten := word 2 (by decide)
  have eleven := word 3 (by decide)
  refine Op.runs_cons up ?_
  show some { v with sp_el1 := s.sp_el1 + 272, sys := Function.update (Function.update (Function.update s.sys .elr_el1 (x 9)) .spsr_el1 (x 10)) .sp_el0 (x 11), pc := s.pc + 84 } = _
  rw [show x 9 = _ from nine, show x 10 = _ from ten, show x 11 = _ from eleven]
  rfl
end Frames

/-- An exception with a handler: from EL0 or from EL1, an interrupt or not. -/
structure Trap where
  user : Bool
  irq : Bool

namespace Trap

/-- The mode it comes from. -/
def mode (k : Trap) : BitVec 4 := if k.user then EL0t else EL1h

/-- Its entry in the vector table, -/
def offset (k : Trap) : Word := (if k.user then 0x400 else 0x200) + if k.irq then 0x80 else 0

/-- the label it branches to, -/
def label (k : Trap) (v : Word) : Word :=
  match k with
  | ⟨false, false⟩ => el1h_sync v
  | ⟨false, true⟩ => el1h_irq v
  | ⟨true, false⟩ => el0_sync v
  | ⟨true, true⟩ => el0_irq v

def save (k : Trap) : List Op := if k.user then savereg else ksavereg

/-- its handler, -/
def handler (k : Trap) (c : Handlers) : Word :=
  match k with
  | ⟨false, false⟩ => c.ksync_handler
  | ⟨false, true⟩ => c.kirq_handler
  | ⟨true, false⟩ => c.usync_handler
  | ⟨true, true⟩ => c.uirq_handler

/-- and where that returns to. -/
def back (k : Trap) (v : Word) : Word := k.label v + 92

/-- The frame that it saves. -/
def frame (k : Trap) (s : State) (elr : Word) : Trapframe := ⟨s.x, elr, s.pstate, if k.user then s.sys .sp_el0 else s.sp_el1⟩

/-- The exception, with `elr` as where it comes from. -/
def taken (k : Trap) (s : State) (elr : Word) : State := s.take (if k.irq then 0x80 else 0) elr

end Trap

/-- What a handler finds: the address of the frame in `x0` and `sp`, and the frame below the stack pointer that was. -/
structure Trap.Entered (k : Trap) (v : Word) (c : Handlers) (s : State) (elr : Word) (t : State) : Prop where
  pc : t.pc = k.handler c
  lr : t.x 30 = k.back v
  mode : t.mode = EL1h
  masked : t.masked = true
  sp : t.sp_el1 = s.sp_el1 - 272
  tf : t.x 0 = s.sp_el1 - 272
  frame : trapframeAt t.mem (s.sp_el1 - 272) = k.frame s elr
  memory : ∀ a, (∀ n < 34, a ≠ slot (s.sp_el1 - 272) n) → t.mem a = s.mem a
  sys : ∀ r, r ≠ .elr_el1 → r ≠ .spsr_el1 → t.sys r = s.sys r

/-- What is behind `eret`: the registers of the frame. -/
def Trapframe.resume (f : Trapframe) (s : State) : State := { s with
  x := f.x
  sp_el1 := s.sp_el1 + 272
  sys := Function.update (Function.update (Function.update s.sys .elr_el1 f.elr) .spsr_el1 f.spsr) .sp_el0 f.sp
  pstate := f.spsr
  pc := f.elr }

section Traps
variable {code : Code} {v : Word} {c : Handlers} {k : Trap} {s t u : State} {elr : Word}

/-- The branch in the table, and the code it branches to. -/
theorem Vectortable.at_trap (h : Vectortable code v c) (k : Trap) :
    code (v + k.offset) = some (.b (k.label v)) ∧ code.At (k.label v) (trapCode k.save (k.handler c)) := by
  have behind := h.text.right
  obtain ⟨_ | _, _ | _⟩ := k
  · exact ⟨(h.entry 4 (show 4 < 16 by decide)).head, behind.left⟩
  · exact ⟨(h.entry 5 (show 5 < 16 by decide)).head, behind.right.left⟩
  · exact ⟨(h.entry 8 (show 8 < 16 by decide)).head, behind.right.right.left⟩
  · exact ⟨(h.entry 9 (show 9 < 16 by decide)).head, behind.right.right.right⟩

/-- The code up to the handler. -/
theorem Trap.runs_save (k : Trap) (mode : s.mode = EL1h) (aligned : s.sp_el1.toNat % 16 = 0) :
    Op.runs k.save s = some { s with
      x := Function.update (Function.update (Function.update s.x 9 (s.sys .elr_el1)) 10 (s.sys .spsr_el1)) 11
        (if k.user then s.sys .sp_el0 else s.sp_el1)
      sp_el1 := s.sp_el1 - 272
      mem := s.mem.put (s.sp_el1 - 272) (Trapframe.words ⟨s.x, s.sys .elr_el1, s.sys .spsr_el1, if k.user then s.sys .sp_el0 else s.sp_el1⟩)
      pc := s.pc + 84 } := by
  unfold Trap.save
  cases k.user with
  | true =>
    rw [if_pos rfl, if_pos rfl, savereg_eq]
    apply runs_saves mode aligned
    intro t mode' _ sys
    rw [← sys]
    exact if_pos mode'
  | false =>
    rw [if_neg Bool.false_ne_true, if_neg Bool.false_ne_true, ksavereg_eq]
    apply runs_saves mode aligned
    intro t mode' sp _
    rw [Op.exec, State.get_sp mode', sp, BitVec.sub_add_cancel]
    rfl

/-- **Into the kernel.** Up to its handler, an exception runs 24 instructions. -/
theorem Vectortable.enters (h : Vectortable code v c) (elr : Word) (vbar : s.sys .vbar_el1 = v) (source : s.mode = k.mode)
    (aligned : s.sp_el1.toNat % 16 = 0) : ∃ t, run code 24 (k.taken s elr) = some t ∧ k.Entered v c s elr t := by
  obtain ⟨branch, text⟩ := h.at_trap k
  obtain ⟨mode, masked⟩ := s.take_mode (if k.irq then 0x80 else 0) elr
  have place : (k.taken s elr).pc = v + k.offset := by
    have table : (if s.mode = EL1h then 0x200 else 0x400 : Word) = if k.user then 0x400 else 0x200 := by
      rw [source, Trap.mode]
      cases k.user <;> rfl
    show s.sys .vbar_el1 + (if s.mode = EL1h then 0x200 else 0x400) + _ = _
    rw [table, vbar, BitVec.add_assoc]
    rfl
  -- the branch of the table
  let t : State := { k.taken s elr with pc := k.label v }
  have here : step code (k.taken s elr) = some t := by
    rw [step, place, branch]
    rfl
  -- the registers
  have twenty_one : k.save.length = 21 := by
    unfold Trap.save
    cases k.user <;> rfl
  obtain ⟨u, saved⟩ : ∃ u, Op.runs k.save t = some u := ⟨_, k.runs_save mode aligned⟩
  have eq := Option.some.inj (saved.symm.trans (k.runs_save (s := t) mode aligned))
  have stored := run_ops text.left.left saved
  have call := text.left.right
  rw [List.length_map] at call
  rw [twenty_one] at stored call
  -- the call
  have fetch : code (k.label v + 84) = some (.op (.mov (.x 0) .sp)) := call.head
  have fetch' : code (k.label v + 84 + 4) = some (.bl (k.handler c)) := call.tail.head
  have pc : u.pc = k.label v + 84 := by rw [eq]
  have mode' : u.mode = EL1h := by
    rw [eq]
    exact mode
  have argument : step code u = some (u.setX 0 u.sp_el1).next := by
    rw [step, pc, fetch, ← State.get_sp mode']
    rfl
  let w : State := { (u.setX 0 u.sp_el1).next.setX 30 (u.pc + 4 + 4) with pc := k.handler c }
  have calls : step code (u.setX 0 u.sp_el1).next = some w := by
    rw [step, show (u.setX 0 u.sp_el1).next.pc = k.label v + 84 + 4 by rw [← pc]; rfl, fetch']
    rfl
  refine ⟨w, run_succ here (run_add (n := 2) stored (run_succ argument (run_succ calls rfl))), ?_⟩
  have sp : u.sp_el1 = s.sp_el1 - 272 := by
    rw [eq]
    rfl
  have elr_t : t.sys .elr_el1 = elr := s.take_elr (if k.irq then 0x80 else 0) elr
  have spsr_t : t.sys .spsr_el1 = s.pstate := s.take_spsr (if k.irq then 0x80 else 0) elr
  have sp_t : t.sys .sp_el0 = s.sys .sp_el0 := s.take_sys (if k.irq then 0x80 else 0) elr (r := .sp_el0) (by decide) (by decide)
  have mem : w.mem = s.mem.put (s.sp_el1 - 272) (k.frame s elr).words := by
    show u.mem = _
    have same : (⟨t.x, elr, s.pstate, if k.user then s.sys .sp_el0 else t.sp_el1⟩ : Trapframe) = k.frame s elr := rfl
    have stack : t.sp_el1 = s.sp_el1 := rfl
    have memory : t.mem = s.mem := rfl
    rw [eq, elr_t, spsr_t, sp_t, same, stack, memory]
  constructor
  · rfl
  · show u.pc + 4 + 4 = k.label v + 92
    rw [pc, BitVec.add_assoc, BitVec.add_assoc]
    rfl
  · exact mode'
  · show u.masked = true
    rw [eq]
    exact masked
  · exact sp
  · exact sp
  · rw [mem]
    exact trapframeAt_put ..
  · intro a out
    rw [mem]
    exact Mem.put_outside out
  · intro r ne ne'
    show u.sys r = s.sys r
    rw [eq]
    exact s.take_sys (if k.irq then 0x80 else 0) elr ne ne'

/-- **Back from it.** Behind the handler, 22 instructions take all registers from the frame. -/
theorem Vectortable.leaves (h : Vectortable code v c) (pc : s.pc = k.back v) (mode : s.mode = EL1h) (aligned : s.sp_el1.toNat % 16 = 0)
    (target : (trapframeAt s.mem s.sp_el1).spsr.extractLsb' 0 4 = EL0t ∨ (trapframeAt s.mem s.sp_el1).spsr.extractLsb' 0 4 = EL1h) :
    run code 22 s = some ((trapframeAt s.mem s.sp_el1).resume s) := by
  have text := (h.at_trap k).2.right
  have twenty_three : (k.save.map .op ++ [.op (.mov (.x 0) .sp), .bl (k.handler c)] : List Instr).length = 23 := by
    unfold Trap.save
    cases k.user <;> rfl
  rw [twenty_three] at text
  have place : code.At s.pc (restorereg.map .op ++ [.eret]) := by
    rw [pc]
    exact text
  have restored := run_ops place.left (runs_restorereg mode aligned)
  have last := place.right.head
  refine run_add (n := 1) restored (run_succ ?_ rfl)
  have fetch : code (s.pc + 84) = some .eret := last
  rw [step, fetch]
  exact if_pos ⟨mode, target⟩

end Traps

end Aarch64Os.Kernel
